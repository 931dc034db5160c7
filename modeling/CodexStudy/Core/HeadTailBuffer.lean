import CodexStudy.Core.Rollout

/-!
# The output of a process (`unified_exec/head_tail_buffer.rs`)

A process can write more than is kept of its output.
-/

namespace CodexStudy.Core

open List

structure HeadTailBuffer where
  maxBytes : Nat
  headBudget : Nat
  tailBudget : Nat
  head : List (List UInt8)
  tail : List (List UInt8)
  headBytes : Nat
  tailBytes : Nat
  omittedBytes : Nat

namespace HeadTailBuffer

def new (maxBytes : UInt64) : HeadTailBuffer where
  maxBytes := maxBytes.toNat
  headBudget := maxBytes.toNat / 2
  tailBudget := maxBytes.toNat - maxBytes.toNat / 2
  head := []
  tail := []
  headBytes := 0
  tailBytes := 0
  omittedBytes := 0

variable (buf : HeadTailBuffer)

def retainedBytes : Nat := usizeSaturatingAdd buf.headBytes buf.tailBytes

def trimLoop (excess : Nat) (tail : List (List UInt8)) (tailBytes omittedBytes : Nat) : List (List UInt8) × Nat × Nat :=
  match tail with
  | [] => ([], tailBytes, omittedBytes)
  | front :: rest =>
      if excess = 0 then (front :: rest, tailBytes, omittedBytes)
      else if front.length ≤ excess then
        trimLoop (excess - front.length) rest (tailBytes - front.length)
          (usizeSaturatingAdd omittedBytes front.length)
      else (front.drop excess :: rest, tailBytes - excess, usizeSaturatingAdd omittedBytes excess)

def trimTailToBudget : HeadTailBuffer :=
  let excess := buf.tailBytes - buf.tailBudget
  let (tail, tailBytes, omittedBytes) := trimLoop excess buf.tail buf.tailBytes buf.omittedBytes
  { buf with tail, tailBytes, omittedBytes }

def pushToTail (chunk : List UInt8) : HeadTailBuffer :=
  if buf.tailBudget = 0 then
    { buf with omittedBytes := usizeSaturatingAdd buf.omittedBytes chunk.length }
  else if buf.tailBudget ≤ chunk.length then
    let start := chunk.length - buf.tailBudget
    let kept := chunk.drop start
    let dropped := chunk.length - kept.length
    { buf with
      omittedBytes := usizeSaturatingAdd (usizeSaturatingAdd buf.omittedBytes buf.tailBytes) dropped
      tail := [kept]
      tailBytes := kept.length }
  else
    trimTailToBudget
      { buf with
        tailBytes := usizeSaturatingAdd buf.tailBytes chunk.length
        tail := buf.tail ++ [chunk] }

def pushChunk (chunk : List UInt8) : HeadTailBuffer :=
  if buf.maxBytes = 0 then
    { buf with omittedBytes := usizeSaturatingAdd buf.omittedBytes chunk.length }
  else if buf.headBytes < buf.headBudget then
    let remainingHead := buf.headBudget - buf.headBytes
    if chunk.length ≤ remainingHead then
      { buf with
        headBytes := usizeSaturatingAdd buf.headBytes chunk.length
        head := buf.head ++ [chunk] }
    else
      let (headPart, tailPart) := chunk.splitAt remainingHead
      let buf :=
        if headPart ≠ [] then
          { buf with
            headBytes := usizeSaturatingAdd buf.headBytes headPart.length
            head := buf.head ++ [headPart] }
        else buf
      pushToTail buf tailPart
  else pushToTail buf chunk

def snapshotChunks : List (List UInt8) := buf.head ++ buf.tail

def toBytes : List UInt8 := buf.head.flatten ++ buf.tail.flatten

def drainChunks : List (List UInt8) × HeadTailBuffer :=
  (buf.head ++ buf.tail, { buf with head := [], tail := [], headBytes := 0, tailBytes := 0, omittedBytes := 0 })

end HeadTailBuffer

/-! ## The calls that change a buffer -/

inductive BufferCall where
  | push (chunk : List UInt8)
  | drain

def BufferCall.apply (buf : HeadTailBuffer) : BufferCall → HeadTailBuffer
  | .push chunk => buf.pushChunk chunk
  | .drain => buf.drainChunks.2

def BufferCall.pushed (bytes : List UInt8) : BufferCall → List UInt8
  | .push chunk => bytes ++ chunk
  | .drain => []

def bufferAfter (maxBytes : UInt64) (calls : List BufferCall) : HeadTailBuffer :=
  calls.foldl BufferCall.apply (.new maxBytes)

def pushedBytes (calls : List BufferCall) : List UInt8 := calls.foldl BufferCall.pushed []

/-! ## Sums that stop at the largest number, and ends of lists -/

variable {a n : Nat} {l l' chunk : List UInt8}

theorem usizeSaturatingAdd_eq {b : Nat} (h : a + b ≤ usizeMax) : usizeSaturatingAdd a b = a + b :=
  Nat.min_eq_left h

theorem usizeSaturatingAdd_zero (h : a ≤ usizeMax) : usizeSaturatingAdd a 0 = a :=
  Nat.min_eq_left h

theorem usizeSaturatingAdd_min (a b : Nat) : usizeSaturatingAdd (min a usizeMax) b = min (a + b) usizeMax := by
  simp only [usizeSaturatingAdd]
  omega

theorem usizeSaturatingAdd_assoc (a b c : Nat) :
    usizeSaturatingAdd (usizeSaturatingAdd a b) c = usizeSaturatingAdd a (b + c) := by
  simp only [usizeSaturatingAdd]
  omega

theorem length_rtake (l : List UInt8) (n : Nat) : (l.rtake n).length = min n l.length := by
  rw [rtake, length_drop]
  omega

theorem rtake_append_of_le (h : n ≤ l'.length) : (l ++ l').rtake n = l'.rtake n := by
  rw [rtake, rtake, length_append, drop_append]
  have hdrop : l.drop (l.length + l'.length - n) = [] := drop_eq_nil_of_le (by omega)
  rw [hdrop, nil_append]
  congr 1
  omega

theorem drop_rtake_append (h : l'.length ≤ n) :
    (l.rtake n ++ l').drop (min n l.length + l'.length - n) = (l ++ l').rtake n := by
  rw [rtake, rtake, length_append, drop_append_of_le_length (by rw [length_drop]; omega),
    drop_append_of_le_length (by omega), drop_drop]
  congr 2
  omega

namespace HeadTailBuffer

/-! ## The tail -/

theorem trimLoop_spec {excess tailBytes omittedBytes : Nat} {tail : List (List UInt8)}
    (hbytes : tailBytes = tail.flatten.length) (hexcess : excess ≤ tailBytes) (homitted : omittedBytes ≤ usizeMax) :
    ∃ trimmed, trimLoop excess tail tailBytes omittedBytes =
        (trimmed, tailBytes - excess, usizeSaturatingAdd omittedBytes excess) ∧
      trimmed.flatten = tail.flatten.drop excess := by
  induction tail generalizing excess tailBytes omittedBytes with
  | nil =>
      have hzero : excess = 0 := by simpa [hbytes] using hexcess
      subst hzero
      exact ⟨[], by rw [trimLoop, usizeSaturatingAdd_zero homitted, Nat.sub_zero], rfl⟩
  | cons front rest ih =>
      rw [flatten_cons, length_append] at hbytes
      unfold trimLoop
      split
      next hzero =>
        subst hzero
        exact ⟨front :: rest, by rw [usizeSaturatingAdd_zero homitted, Nat.sub_zero], rfl⟩
      next =>
        split
        next hfro =>
          have hle : usizeSaturatingAdd omittedBytes front.length ≤ usizeMax := Nat.min_le_right ..
          obtain ⟨trimmed, hloop, hflat⟩ := @ih (excess - front.length) (tailBytes - front.length) _
            (by omega) (by omega) hle
          refine ⟨trimmed, ?_, ?_⟩
          · rw [hloop, usizeSaturatingAdd_assoc, Nat.add_sub_of_le hfro]
            congr 2
            omega
          · rw [hflat, flatten_cons, drop_append, drop_eq_nil_of_le hfro, nil_append]
        next hfro =>
          refine ⟨front.drop excess :: rest, rfl, ?_⟩
          rw [flatten_cons, flatten_cons, drop_append_of_le_length (by omega)]

structure KeepsTail (buf : HeadTailBuffer) (past : List UInt8) : Prop where
  tail_flatten : buf.tail.flatten = past.rtake buf.tailBudget
  tailBytes_eq : buf.tailBytes = min buf.tailBudget past.length
  omittedBytes_eq : buf.omittedBytes = min (past.length - buf.tailBudget) usizeMax

theorem pushToTail_frame (buf : HeadTailBuffer) (chunk : List UInt8) :
    (buf.pushToTail chunk).maxBytes = buf.maxBytes ∧ (buf.pushToTail chunk).headBudget = buf.headBudget ∧
      (buf.pushToTail chunk).tailBudget = buf.tailBudget ∧ (buf.pushToTail chunk).head = buf.head ∧
        (buf.pushToTail chunk).headBytes = buf.headBytes := by
  unfold pushToTail
  split
  next => exact ⟨rfl, rfl, rfl, rfl, rfl⟩
  next =>
    split
    next => exact ⟨rfl, rfl, rfl, rfl, rfl⟩
    next => exact ⟨rfl, rfl, rfl, rfl, rfl⟩

variable {buf : HeadTailBuffer} {bytes : List UInt8}

theorem KeepsTail.pushToTail {past : List UInt8} (h : KeepsTail buf past) (hbudget : buf.tailBudget ≤ 2 ^ 63)
    (chunk : List UInt8) : KeepsTail (buf.pushToTail chunk) (past ++ chunk) := by
  obtain ⟨hflat, hbytes, homitted⟩ := h
  unfold HeadTailBuffer.pushToTail
  split
  next hzero =>
    refine ⟨?_, ?_, ?_⟩
    · simp only [hflat, hzero, rtake_zero]
    · simp only [hbytes, hzero, Nat.zero_min]
    · simp only [homitted, hzero, Nat.sub_zero, usizeSaturatingAdd_min, length_append]
  next =>
    split
    next hlong =>
      have hkept : chunk.drop (chunk.length - buf.tailBudget) = chunk.rtake buf.tailBudget := rfl
      have hlen : (chunk.rtake buf.tailBudget).length = buf.tailBudget := by
        rw [length_rtake, Nat.min_eq_left hlong]
      refine ⟨?_, ?_, ?_⟩
      · simp only [hkept, flatten_cons, flatten_nil, append_nil]
        exact (rtake_append_of_le hlong).symm
      · simp only [hkept, hlen, length_append]
        omega
      · simp only [hkept, hlen, hbytes, homitted, usizeSaturatingAdd_min, length_append]
        congr 1
        omega
    next hshort =>
      have hfits : buf.tailBytes + chunk.length ≤ usizeMax := by
        have hmax : usizeMax = 2 ^ 64 - 1 := rfl
        omega
      have hlen : (buf.tail ++ [chunk]).flatten.length = buf.tailBytes + chunk.length := by
        rw [flatten_append, length_append, hflat, length_rtake, hbytes, flatten_singleton]
      obtain ⟨trimmed, hloop, htrimmed⟩ := @trimLoop_spec (buf.tailBytes + chunk.length - buf.tailBudget)
        (buf.tailBytes + chunk.length) buf.omittedBytes (buf.tail ++ [chunk]) hlen.symm (Nat.sub_le ..)
        (by rw [homitted]; exact Nat.min_le_right ..)
      have htrim : trimTailToBudget { buf with
          tailBytes := usizeSaturatingAdd buf.tailBytes chunk.length, tail := buf.tail ++ [chunk] } =
          { buf with
            tail := trimmed
            tailBytes := buf.tailBytes + chunk.length - (buf.tailBytes + chunk.length - buf.tailBudget)
            omittedBytes := usizeSaturatingAdd buf.omittedBytes
              (buf.tailBytes + chunk.length - buf.tailBudget) } := by
        simp only [trimTailToBudget, usizeSaturatingAdd_eq hfits, hloop]
      rw [htrim]
      refine ⟨?_, ?_, ?_⟩
      · simp only [htrimmed, flatten_append, flatten_singleton, hflat, hbytes]
        exact drop_rtake_append (by omega)
      · simp only [hbytes, length_append]
        omega
      · simp only [homitted, hbytes, usizeSaturatingAdd_min, length_append]
        congr 1
        omega

/-! ## The whole buffer -/

structure Keeps (buf : HeadTailBuffer) (maxBytes : Nat) (bytes : List UInt8) : Prop where
  maxBytes_eq : buf.maxBytes = maxBytes
  headBudget_eq : buf.headBudget = maxBytes / 2
  tailBudget_eq : buf.tailBudget = maxBytes - maxBytes / 2
  head_flatten : buf.head.flatten = bytes.take (maxBytes / 2)
  headBytes_eq : buf.headBytes = min (maxBytes / 2) bytes.length
  keepsTail : buf.KeepsTail (bytes.drop (maxBytes / 2))

theorem keeps_new (maxBytes : UInt64) : Keeps (.new maxBytes) maxBytes.toNat [] := by
  refine ⟨rfl, rfl, rfl, ?_, ?_, ?_, ?_, ?_⟩
  all_goals simp [new, rtake]

theorem Keeps.drain {maxBytes : Nat} (h : Keeps buf maxBytes bytes) : Keeps buf.drainChunks.2 maxBytes [] := by
  refine ⟨h.maxBytes_eq, h.headBudget_eq, h.tailBudget_eq, ?_, ?_, ?_, ?_, ?_⟩
  all_goals simp [drainChunks, rtake]

theorem Keeps.of_pushToTail {filled : HeadTailBuffer} {maxBytes : Nat}
    (hbound : maxBytes ≤ usizeMax) (h : Keeps filled maxBytes bytes) (hfull : maxBytes / 2 ≤ bytes.length)
    (heq : buf = filled.pushToTail chunk) : Keeps buf maxBytes (bytes ++ chunk) := by
  obtain ⟨hmax, hhead, htail, hflat, hbytes, hkps⟩ := h
  obtain ⟨f₁, f₂, f₃, f₄, f₅⟩ := pushToTail_frame filled chunk
  have hbudget : filled.tailBudget ≤ 2 ^ 63 := by
    have : usizeMax = 2 ^ 64 - 1 := rfl
    omega
  subst heq
  refine ⟨f₁.trans hmax, f₂.trans hhead, f₃.trans htail, ?_, ?_, ?_⟩
  · rw [f₄, hflat, take_append_of_le_length hfull]
  · rw [f₅, hbytes, length_append]
    omega
  · rw [drop_append_of_le_length hfull]
    exact hkps.pushToTail hbudget chunk

theorem Keeps.fill {maxBytes : Nat} (hbound : maxBytes ≤ usizeMax)
    (h : Keeps buf maxBytes bytes) (hroom : bytes.length + chunk.length ≤ maxBytes / 2) :
    Keeps { buf with headBytes := usizeSaturatingAdd buf.headBytes chunk.length, head := buf.head ++ [chunk] }
      maxBytes (bytes ++ chunk) := by
  obtain ⟨hmax, hhead, htail, hflat, hbytes, hkps⟩ := h
  have hlen : (bytes ++ chunk).length ≤ maxBytes / 2 := by
    rw [length_append]
    exact hroom
  have hold : bytes.take (maxBytes / 2) = bytes := take_of_length_le (by omega)
  refine ⟨hmax, hhead, htail, ?_, ?_, ?_⟩
  · rw [take_of_length_le hlen, flatten_append, hflat, hold, flatten_singleton]
  · have hcnt : buf.headBytes + chunk.length ≤ usizeMax := by omega
    show usizeSaturatingAdd buf.headBytes chunk.length = _
    rw [usizeSaturatingAdd_eq hcnt, hbytes, length_append]
    omega
  · rw [drop_eq_nil_of_le (by omega)] at hkps
    rw [drop_eq_nil_of_le hlen]
    exact ⟨hkps.tail_flatten, hkps.tailBytes_eq, hkps.omittedBytes_eq⟩

theorem Keeps.pushChunk {maxBytes : Nat} (hbound : maxBytes ≤ usizeMax) (h : Keeps buf maxBytes bytes)
    (chunk : List UInt8) : Keeps (buf.pushChunk chunk) maxBytes (bytes ++ chunk) := by
  have hcnt := h.headBytes_eq
  have hbudget := h.headBudget_eq
  unfold HeadTailBuffer.pushChunk
  split
  next hzero =>
    rw [h.maxBytes_eq] at hzero
    refine h.of_pushToTail hbound (by omega) ?_
    rw [HeadTailBuffer.pushToTail, if_pos (by rw [h.tailBudget_eq, hzero])]
  next =>
    split
    next hroom =>
      dsimp only
      split
      next hfits => exact h.fill hbound (by omega)
      next hspl =>
        -- The chunk crosses the end of the head.
        simp only [splitAt_eq]
        have htake : (chunk.take (buf.headBudget - buf.headBytes)).length = buf.headBudget - buf.headBytes :=
          length_take_of_le (by omega)
        have hne : chunk.take (buf.headBudget - buf.headBytes) ≠ [] := by
          intro hnil
          rw [hnil, length_nil] at htake
          omega
        rw [if_pos hne]
        have hfilled := @fill (chunk.take (buf.headBudget - buf.headBytes)) _ _ _ hbound h (by omega)
        have hkps := hfilled.of_pushToTail hbound (by rw [length_append]; omega)
          (rfl : pushToTail _ (chunk.drop (buf.headBudget - buf.headBytes)) = _)
        rw [append_assoc, take_append_drop] at hkps
        exact hkps
    next hfull => exact h.of_pushToTail hbound (by omega) rfl

theorem Keeps.toBytes_eq {maxBytes : Nat} (h : Keeps buf maxBytes bytes) :
    buf.toBytes =
      if bytes.length ≤ maxBytes then bytes
      else bytes.take (maxBytes / 2) ++ bytes.rtake (maxBytes - maxBytes / 2) := by
  rw [toBytes, h.head_flatten, h.keepsTail.tail_flatten, h.tailBudget_eq]
  split
  next hfits =>
    rw [rtake, length_drop, Nat.sub_eq_zero_of_le (by omega), drop_zero, take_append_drop]
  next hlong =>
    rw [rtake, rtake, length_drop, drop_drop]
    congr 2
    omega

theorem Keeps.retainedBytes_eq {maxBytes : Nat} (hbound : maxBytes ≤ usizeMax) (h : Keeps buf maxBytes bytes) :
    buf.retainedBytes = min maxBytes bytes.length := by
  have htail := h.keepsTail.tailBytes_eq
  rw [h.tailBudget_eq, length_drop] at htail
  rw [retainedBytes, h.headBytes_eq, htail, usizeSaturatingAdd_eq (by omega)]
  omega

theorem Keeps.omittedBytes_eq {maxBytes : Nat}
    (h : Keeps buf maxBytes bytes) : buf.omittedBytes = min (bytes.length - maxBytes) usizeMax := by
  rw [h.keepsTail.omittedBytes_eq, h.tailBudget_eq, length_drop]
  congr 1
  omega

end HeadTailBuffer

theorem BufferCall.apply_keeps {buf : HeadTailBuffer} {maxBytes : Nat} {bytes : List UInt8}
    (hbound : maxBytes ≤ usizeMax) (h : buf.Keeps maxBytes bytes) (call : BufferCall) :
    (call.apply buf).Keeps maxBytes (call.pushed bytes) := by
  cases call with
  | push chunk => exact h.pushChunk hbound chunk
  | drain => exact h.drain

/-! ## Every run of calls -/

variable (maxBytes : UInt64) (calls : List BufferCall)

theorem toNat_le_usizeMax : maxBytes.toNat ≤ usizeMax := Nat.le_of_lt_succ maxBytes.toNat_lt

theorem bufferAfter_keeps : (bufferAfter maxBytes calls).Keeps maxBytes.toNat (pushedBytes calls) := by
  have hrun : ∀ (buf : HeadTailBuffer) (bytes : List UInt8), buf.Keeps maxBytes.toNat bytes →
      (calls.foldl BufferCall.apply buf).Keeps maxBytes.toNat (calls.foldl BufferCall.pushed bytes) := by
    induction calls with
    | nil => exact fun _ _ h => h
    | cons call rest ih =>
        intro buf bytes h
        exact ih _ _ (call.apply_keeps (toNat_le_usizeMax maxBytes) h)
  exact hrun _ _ (HeadTailBuffer.keeps_new maxBytes)

/-- What the buffer gives back and counts depends on the bytes pushed since it was drained, not on how they were cut.
The count of the bytes left out stops at the largest number. -/
theorem bufferAfter_keeps_ends :
    (bufferAfter maxBytes calls).toBytes =
        (if (pushedBytes calls).length ≤ maxBytes.toNat then pushedBytes calls
        else (pushedBytes calls).take (maxBytes.toNat / 2) ++
          (pushedBytes calls).rtake (maxBytes.toNat - maxBytes.toNat / 2)) ∧
      (bufferAfter maxBytes calls).retainedBytes = min maxBytes.toNat (pushedBytes calls).length ∧
      (bufferAfter maxBytes calls).omittedBytes =
        min ((pushedBytes calls).length - (bufferAfter maxBytes calls).retainedBytes) usizeMax ∧
      ((pushedBytes calls).length - (bufferAfter maxBytes calls).retainedBytes ≤ usizeMax →
        (bufferAfter maxBytes calls).retainedBytes + (bufferAfter maxBytes calls).omittedBytes =
          (pushedBytes calls).length) ∧
      ∀ others, pushedBytes others = pushedBytes calls →
        (bufferAfter maxBytes others).toBytes = (bufferAfter maxBytes calls).toBytes ∧
        (bufferAfter maxBytes others).retainedBytes = (bufferAfter maxBytes calls).retainedBytes ∧
        (bufferAfter maxBytes others).omittedBytes = (bufferAfter maxBytes calls).omittedBytes := by
  have hbound := toNat_le_usizeMax maxBytes
  have hkps := bufferAfter_keeps maxBytes calls
  have hretained := hkps.retainedBytes_eq hbound
  have homitted := hkps.omittedBytes_eq
  refine ⟨hkps.toBytes_eq, hretained, ?_, ?_, ?_⟩
  · rw [homitted, hretained]
    congr 1
    omega
  · intro hcounted
    omega
  · intro others hsame
    have hothers := bufferAfter_keeps maxBytes others
    rw [hsame] at hothers
    exact ⟨hothers.toBytes_eq.trans hkps.toBytes_eq.symm, (hothers.retainedBytes_eq hbound).trans hretained.symm,
      hothers.omittedBytes_eq.trans homitted.symm⟩

/-- Pushes of four gibibytes, more than can be counted in all. -/
def flood : List BufferCall := replicate (2 ^ 32) (.push (replicate (2 ^ 32) 0))

theorem omittedBytes_of_flood_stops :
    (bufferAfter 0 flood).retainedBytes + (bufferAfter 0 flood).omittedBytes ≠ (pushedBytes flood).length := by
  have hlen : ∀ n, ((replicate n (BufferCall.push (replicate (2 ^ 32) 0))).foldl
      BufferCall.pushed []).length = n * 2 ^ 32 := by
    intro n
    induction n with
    | zero => rfl
    | succ n ih =>
        rw [replicate_succ', foldl_append, foldl_cons, foldl_nil, BufferCall.pushed,
          length_append, ih, length_replicate]
        omega
  have hkps := bufferAfter_keeps 0 flood
  have hflood : (pushedBytes flood).length = 2 ^ 32 * 2 ^ 32 := hlen _
  have hmax : usizeMax = 2 ^ 64 - 1 := rfl
  have hzero : (0 : UInt64).toNat = 0 := rfl
  rw [hkps.retainedBytes_eq (Nat.zero_le _), hkps.omittedBytes_eq, hflood]
  omega

end CodexStudy.Core
