import CodexStudy.ChatAgent.Protocol
import CodexStudy.Lib.ByteOffsets

/-!
# The output of a command (`executor/output_limits.rs`)

Of an output with too many lines or bytes only the last lines are given back, and a notice says how long it was.
-/

namespace CodexStudy.ChatAgent.Executor

open CodexStudy.Lib List
open CodexStudy.Lib.Text (byteLen_append join)

def OUTPUT_LIMIT_LINES : Nat := 2000

def OUTPUT_LIMIT_BYTES : Nat := 50000

def OUTPUT_PREVIEW_LINES : Nat := 50

structure TruncationNotice where
  reason : Text
  totalLines : Nat
  totalBytes : Nat

structure TruncatedOutput where
  text : Text
  notice : Option TruncationNotice

def truncateToBytes (text : Text) (maxBytes : Nat) : Text :=
  if Text.byteLen text ≤ maxBytes then text else text.take maxBytes ++ ['…']

def truncateCommandOutput (fullOutput : Text) : TruncatedOutput :=
  if fullOutput = [] then { text := [], notice := none }
  else
    let lines := fullOutput.splitOn '\n'
    let totalLines := lines.length
    let totalBytes := Text.byteLen fullOutput
    let exceededLines := totalLines > OUTPUT_LIMIT_LINES
    let exceededBytes := totalBytes > OUTPUT_LIMIT_BYTES
    if ¬ exceededLines ∧ ¬ exceededBytes then { text := fullOutput, notice := none }
    else
      let previewStart := totalLines - OUTPUT_PREVIEW_LINES
      let preview := join ['\n'] (lines.drop previewStart)
      let preview := truncateToBytes preview OUTPUT_LIMIT_BYTES
      let reason :=
        if exceededLines then
          "Output exceeded " ++ natText OUTPUT_LIMIT_LINES ++ " line limit (" ++ natText totalLines ++
            " lines total)."
        else
          "Output exceeded " ++ natText OUTPUT_LIMIT_BYTES ++ " byte limit (" ++ natText totalBytes ++
            " bytes total)."
      { text := preview, notice := some { reason, totalLines, totalBytes } }

/-! ## What is kept -/

def lastLines (output : Text) : Text :=
  join ['\n'] ((output.splitOn '\n').drop ((output.splitOn '\n').length - OUTPUT_PREVIEW_LINES))

def FitsLimits (output : Text) : Prop :=
  (output.splitOn '\n').length ≤ OUTPUT_LIMIT_LINES ∧ Text.byteLen output ≤ OUTPUT_LIMIT_BYTES

/-- What is promised of the result for an output. -/
structure KeepsLimits (output : Text) (result : TruncatedOutput) : Prop where
  byteLen_text_le : Text.byteLen result.text ≤ OUTPUT_LIMIT_BYTES + 4
  unchanged : FitsLimits output → result.text = output ∧ result.notice = none
  truncated : ¬ FitsLimits output →
    (∃ reason, result.notice = some ⟨reason, (output.splitOn '\n').length, Text.byteLen output⟩) ∧
      ∃ body, (result.text = body ∨ result.text = body ++ ['…']) ∧ body <:+: lastLines output

section

variable {output text : Text} {maxBytes : Nat}

theorem join_drop_isSuffix (sep : Text) (ls : List Text) (n : Nat) : join sep (ls.drop n) <:+ join sep ls := by
  induction ls generalizing n with
  | nil => rw [drop_nil]
  | cons l ls ih =>
      cases n with
      | zero => exact suffix_rfl
      | succ n =>
          rw [drop_succ_cons]
          cases ls with
          | nil =>
              rw [drop_nil]
              exact nil_suffix
          | cons l' ls =>
              have hcons : join sep (l :: l' :: ls) = l ++ sep ++ join sep (l' :: ls) := by
                simp only [join, intercalate_cons_cons]
              rw [hcons]
              exact (ih n).trans (suffix_append ..)

theorem lastLines_isSuffix (output : Text) : lastLines output <:+ output := by
  have h := join_drop_isSuffix ['\n'] (output.splitOn '\n') ((output.splitOn '\n').length - OUTPUT_PREVIEW_LINES)
  have hjoin : join ['\n'] (output.splitOn '\n') = output := intercalate_splitOn '\n'
  rw [hjoin] at h
  exact h

theorem lastLines_of_one_line (h : '\n' ∉ output) : lastLines output = output := by
  have hst : 1 - OUTPUT_PREVIEW_LINES = 0 := by decide
  rw [lastLines, splitOn_eq_singleton h, length_singleton, hst, drop_zero]
  exact intercalate_singleton

theorem byteLen_le_of_isInfix (h : text <:+: output) : Text.byteLen text ≤ Text.byteLen output := by
  obtain ⟨front, back, rfl⟩ := h
  rw [byteLen_append, byteLen_append]
  omega

theorem truncateToBytes_cases (text : Text) (maxBytes : Nat) :
    truncateToBytes text maxBytes = text ∧ Text.byteLen text ≤ maxBytes ∨
      truncateToBytes text maxBytes = text.take maxBytes ++ ['…'] ∧ maxBytes < Text.byteLen text := by
  unfold truncateToBytes
  split
  next h => exact .inl ⟨rfl, h⟩
  next h => exact .inr ⟨rfl, Nat.lt_of_not_le h⟩

theorem truncateCommandOutput_of_fits (h : FitsLimits output) :
    truncateCommandOutput output = { text := output, notice := none } := by
  unfold truncateCommandOutput
  split
  next hnil => rw [hnil]
  next => exact if_pos ⟨Nat.not_lt_of_le h.1, Nat.not_lt_of_le h.2⟩

theorem truncateCommandOutput_of_not_fits (h : ¬ FitsLimits output) : ∃ reason, truncateCommandOutput output =
      { text := truncateToBytes (lastLines output) OUTPUT_LIMIT_BYTES
        notice := some ⟨reason, (output.splitOn '\n').length, Text.byteLen output⟩ } := by
  unfold truncateCommandOutput
  split
  next hnil =>
    subst hnil
    exact absurd ⟨by decide, by decide⟩ h
  next =>
    refine ⟨_, if_neg ?_⟩
    rintro ⟨hlns, hbytes⟩
    exact h ⟨Nat.le_of_not_lt hlns, Nat.le_of_not_lt hbytes⟩

/-- The cut keeps as many characters as bytes are allowed, so only their bytes can go past the limit. -/
theorem keepsLimits_iff (output : Text) : KeepsLimits output (truncateCommandOutput output) ↔
      Text.byteLen ((lastLines output).take OUTPUT_LIMIT_BYTES) ≤ OUTPUT_LIMIT_BYTES + 1 := by
  have htake : (lastLines output).take OUTPUT_LIMIT_BYTES <:+: lastLines output := ( take_prefix ..).isInfix
  have hshort := byteLen_le_of_isInfix htake
  have hlast := byteLen_le_of_isInfix (lastLines_isSuffix output).isInfix
  have hellipsis : Text.byteLen ['…'] = 3 := by decide
  by_cases hfits : FitsLimits output
  · have hbytes := hfits.2
    have htext : Text.byteLen output ≤ OUTPUT_LIMIT_BYTES + 4 := by omega
    rw [truncateCommandOutput_of_fits hfits]
    exact iff_of_true ⟨htext, fun _ => ⟨rfl, rfl⟩, fun h => absurd hfits h⟩ (by omega)
  · obtain ⟨reason, hres⟩ := truncateCommandOutput_of_not_fits hfits
    rw [hres]
    rcases truncateToBytes_cases (lastLines output) OUTPUT_LIMIT_BYTES with ⟨hcut, hlen⟩ | ⟨hcut, hlen⟩
    · have htext : Text.byteLen (lastLines output) ≤ OUTPUT_LIMIT_BYTES + 4 := by omega
      rw [hcut]
      exact iff_of_true
        ⟨htext, fun h => absurd h hfits, fun _ => ⟨⟨reason, rfl⟩, lastLines output, .inl rfl, infix_rfl⟩⟩
        (by omega)
    · have hcnt : Text.byteLen ((lastLines output).take OUTPUT_LIMIT_BYTES ++ ['…']) =
          Text.byteLen ((lastLines output).take OUTPUT_LIMIT_BYTES) + 3 := by
        rw [byteLen_append, hellipsis]
      rw [hcut]
      constructor
      · intro h
        have hle := h.byteLen_text_le
        rw [hcnt] at hle
        omega
      · intro hle
        have htext : Text.byteLen ((lastLines output).take OUTPUT_LIMIT_BYTES ++ ['…']) ≤ OUTPUT_LIMIT_BYTES + 4 := by
          omega
        exact ⟨htext, fun h => absurd h hfits, fun _ => ⟨⟨reason, rfl⟩, _, .inr rfl, htake⟩⟩

/-! ## An output of one long line -/

def umlauts : Text := replicate 25001 'ä'

theorem byteLen_replicate (n : Nat) (c : Char) : Text.byteLen (replicate n c) = n * c.utf8Size := by
  unfold Text.byteLen
  rw [map_replicate, sum_replicate_nat]

/-- All letters of the line are kept, as they are fewer than the bytes that are allowed. -/
theorem umlauts_exceed_limit : ¬ KeepsLimits umlauts (truncateCommandOutput umlauts) := by
  have hlast : lastLines umlauts = umlauts :=
    lastLines_of_one_line fun h => absurd (eq_of_mem_replicate h) (by decide)
  have hsize : ('ä').utf8Size = 2 := by decide
  have hlen : Text.byteLen umlauts = 50002 := by rw [umlauts, byteLen_replicate, hsize]
  have hfits : ¬ FitsLimits umlauts := fun h => absurd (hlen ▸ h.2) (by decide)
  have htake : umlauts.take OUTPUT_LIMIT_BYTES = umlauts :=
    take_of_length_le (by rw [umlauts, length_replicate]; decide)
  obtain ⟨reason, hres⟩ := truncateCommandOutput_of_not_fits hfits
  intro h
  have hle := h.byteLen_text_le
  rw [hres, hlast] at hle
  rcases truncateToBytes_cases umlauts OUTPUT_LIMIT_BYTES with ⟨-, hfew⟩ | ⟨hcut, -⟩
  · exact absurd (hlen ▸ hfew) (by decide)
  · dsimp only at hle
    rw [hcut, htake, byteLen_append, hlen] at hle
    exact absurd hle (by decide)

end

end CodexStudy.ChatAgent.Executor
