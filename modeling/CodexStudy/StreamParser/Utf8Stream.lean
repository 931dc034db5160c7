import CodexStudy.Lib.ByteOffsets
import CodexStudy.StreamParser.Parsers

/-!
# Bytes in chunks (`utf8_stream.rs`)

A chunk of bytes may end inside a character.
-/

namespace CodexStudy.StreamParser

open CodexStudy.Lib CodexStudy.Lib.Text List StreamParser

/-! ## Decoding (`std::str::from_utf8`) -/

def decodeChar (bytes : List UInt8) : Option Char := bytes.toByteArray.utf8DecodeChar? 0

theorem decodeChar_append (c : Char) (bytes : List UInt8) : decodeChar (String.utf8EncodeChar c ++ bytes) = some c := by
  rw [decodeChar, toByteArray_append]
  exact ByteArray.utf8DecodeChar?_utf8EncodeChar_append

variable {c : Char} {chunk : List UInt8}

theorem prefix_of_decodeChar {bytes : List UInt8} (h : decodeChar bytes = some c) :
    String.utf8EncodeChar c <+: bytes := by
  obtain ⟨rest, hrest⟩ := ByteArray.exists_of_utf8DecodeChar?_eq_some h
  refine ⟨rest.data.toList, ?_⟩
  have := congrArg (fun array => array.data.toList) hrest
  simpa using this.symm

theorem length_drop_decodeChar_lt {bytes : List UInt8} (h : decodeChar bytes = some c) :
    (bytes.drop c.utf8Size).length < bytes.length := by
  have hle := (prefix_of_decodeChar h).length_le
  have hpos := c.utf8Size_pos
  simp at hle ⊢
  omega

/-- The text at the beginning of some bytes, and the bytes behind it. -/
def decode (bytes : List UInt8) : Text × List UInt8 :=
  match _h : decodeChar bytes with
  | some c => (c :: (decode (bytes.drop c.utf8Size)).1, (decode (bytes.drop c.utf8Size)).2)
  | none => ([], bytes)
  termination_by bytes.length
  decreasing_by exact length_drop_decodeChar_lt _h

/-- Some character has bytes that start with these. -/
def startsChar (bytes : List UInt8) : Bool :=
  (range 0x110000).any fun n => bytes.isPrefixOf (String.utf8EncodeChar (Char.ofNat n))

structure Utf8Error where
  validUpTo : Nat
  errorLen : Option Nat
  deriving DecidableEq

/-- Bytes that can still become a character have no error length. Otherwise it is that of those that could. -/
def errorLen (bytes : List UInt8) : Option Nat :=
  if startsChar bytes then none
  else if startsChar (bytes.take 3) then some 3
  else if startsChar (bytes.take 2) then some 2
  else some 1

def fromUtf8 (bytes : List UInt8) : Except Utf8Error Text :=
  let (text, rest) := decode bytes
  if rest = [] then .ok text else .error ⟨bytes.length - rest.length, errorLen rest⟩

/-! ## The parser -/

inductive Utf8StreamParserError where
  | invalidUtf8 (validUpTo errorLen : Nat)
  | incompleteUtf8AtEof
  deriving DecidableEq

structure Utf8StreamParser (π : Type) where
  inner : π
  pendingUtf8 : List UInt8

namespace Utf8StreamParser

variable {π ε : Type} [StreamTextParser π ε]

def new (inner : π) : Utf8StreamParser π := ⟨inner, []⟩

def pushBytes (parser : Utf8StreamParser π) (chunk : List UInt8) :
    Except Utf8StreamParserError (StreamTextChunk ε) × Utf8StreamParser π :=
  let oldLen := parser.pendingUtf8.length
  let pending := parser.pendingUtf8 ++ chunk
  match fromUtf8 pending with
  | .ok text =>
      let (out, inner) := StreamTextParser.pushStr parser.inner text
      (.ok out, ⟨inner, []⟩)
  | .error ⟨validUpTo, some errorLen⟩ =>
      (.error (.invalidUtf8 validUpTo errorLen), { parser with pendingUtf8 := pending.take oldLen })
  | .error ⟨validUpTo, none⟩ =>
      if validUpTo = 0 then (.ok .default, { parser with pendingUtf8 := pending })
      else
        match fromUtf8 (pending.take validUpTo) with
        | .ok text =>
            let (out, inner) := StreamTextParser.pushStr parser.inner text
            (.ok out, ⟨inner, pending.drop validUpTo⟩)
        | .error err =>
            (.error (.invalidUtf8 err.validUpTo (err.errorLen.getD 0)), { parser with pendingUtf8 := pending.take oldLen })

/-- What waits is decoded once more, and the inner parser finishes behind it. -/
def finish (parser : Utf8StreamParser π) : Except Utf8StreamParserError (StreamTextChunk ε) × Utf8StreamParser π :=
  let finishInner (out : StreamTextChunk ε) (parser : Utf8StreamParser π) :=
    let (tail, inner) := StreamTextParser.finish parser.inner
    (Except.ok ⟨out.visibleText ++ tail.visibleText, out.extracted ++ tail.extracted⟩, { parser with inner })
  if parser.pendingUtf8 = [] then finishInner .default parser
  else
    match fromUtf8 parser.pendingUtf8 with
    | .ok text =>
        let (out, inner) := StreamTextParser.pushStr parser.inner text
        finishInner out ⟨inner, []⟩
    | .error ⟨validUpTo, some errorLen⟩ => (.error (.invalidUtf8 validUpTo errorLen), parser)
    | .error ⟨_, none⟩ => (.error .incompleteUtf8AtEof, parser)

/-- The parser after some chunks, and what each of them gave. -/
def pushAll (parser : Utf8StreamParser π) :
    List (List UInt8) → List (Except Utf8StreamParserError (StreamTextChunk ε)) × Utf8StreamParser π
  | [] => ([], parser)
  | chunk :: chunks =>
      let (result, parser) := parser.pushBytes chunk
      let (results, parser) := pushAll parser chunks
      (result :: results, parser)

end Utf8StreamParser

end CodexStudy.StreamParser
