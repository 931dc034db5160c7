import CodexStudy.ApplyPatch.Parser
import CodexStudy.Lib.Lists

/-!
# Growing previews

The hunks that are shown while a patch arrives only grow: a line changes the last hunk, and in it the last
chunk, by adding to it, or puts a new one behind it.
-/

namespace CodexStudy.ApplyPatch

open CodexStudy.Lib List GrowsAtLast

/-! ## Growth -/

/-- Lines are appended to a chunk, or its end is marked as the end of the file. -/
structure UpdateFileChunk.Gains (chunk chunk' : UpdateFileChunk) : Prop where
  changeContext : chunk'.changeContext = chunk.changeContext
  oldLines : chunk.oldLines <+: chunk'.oldLines
  newLines : chunk.newLines <+: chunk'.newLines
  isEndOfFile : chunk.isEndOfFile = true → chunk'.isEndOfFile = true

/-- A hunk keeps its kind and path. Added contents are appended to; an update gets its destination while it has no
chunks, and its chunks grow at the last one. -/
inductive Hunk.Gains : Hunk → Hunk → Prop where
  | addFile {path contents contents' : Text} : contents <+: contents' →
      Hunk.Gains (.addFile path contents) (.addFile path contents')
  | deleteFile {path : Text} : Hunk.Gains (.deleteFile path) (.deleteFile path)
  | updateFile {path : Text} {movePath movePath' : Option Text} {chunks chunks' : List UpdateFileChunk} :
      movePath' = movePath ∨ movePath = none ∧ chunks = [] →
      GrowsAtLast UpdateFileChunk.Gains chunks chunks' →
      Hunk.Gains (.updateFile path movePath chunks) (.updateFile path movePath' chunks')

/-- All hunks but the last stay, the last one gains, and new hunks are appended. -/
def HunksGrow : List Hunk → List Hunk → Prop := GrowsAtLast Hunk.Gains

variable (chunk : UpdateFileChunk)

theorem UpdateFileChunk.Gains.refl : chunk.Gains chunk :=
  ⟨rfl, prefix_rfl, prefix_rfl, id⟩

theorem UpdateFileChunk.Gains.trans {chunk chunk' chunk'' : UpdateFileChunk} (h : chunk.Gains chunk')
    (h' : chunk'.Gains chunk'') : chunk.Gains chunk'' where
  changeContext := h'.changeContext.trans h.changeContext
  oldLines := h.oldLines.trans h'.oldLines
  newLines := h.newLines.trans h'.newLines
  isEndOfFile := fun hend => h'.isEndOfFile (h.isEndOfFile hend)

theorem chunksGrow_refl (chunks : List UpdateFileChunk) : GrowsAtLast UpdateFileChunk.Gains chunks chunks :=
  refl UpdateFileChunk.Gains.refl chunks

theorem Hunk.Gains.refl (hunk : Hunk) : hunk.Gains hunk := by
  cases hunk with
  | addFile path contents => exact .addFile prefix_rfl
  | deleteFile path => exact .deleteFile
  | updateFile path movePath chunks => exact .updateFile (.inl rfl) (chunksGrow_refl chunks)

variable {hunk hunk' : Hunk} {change : UpdateFileChunk → UpdateFileChunk} {hunks : List Hunk} {p : StreamingPatchParser}

theorem Hunk.Gains.trans {hunk'' : Hunk} (h : hunk.Gains hunk') (h' : hunk'.Gains hunk'') :
    hunk.Gains hunk'' := by
  cases h with
  | addFile hpre =>
      cases h' with
      | addFile hpre' => exact .addFile (hpre.trans hpre')
  | deleteFile => exact h'
  | updateFile hmove hcks =>
      cases h' with
      | updateFile hmove' hcks' =>
          refine .updateFile ?_ (hcks.trans (fun _ _ _ => UpdateFileChunk.Gains.trans) hcks')
          -- A destination that is given later is given to an update that had no chunks before either.
          rcases hmove' with rfl | ⟨rfl, rfl⟩
          · exact hmove
          · rcases hmove with rfl | hmove
            · exact .inr ⟨rfl, hcks.eq_nil⟩
            · exact .inr hmove

theorem hunksGrow_append (hunks new : List Hunk) : HunksGrow hunks (hunks ++ new) :=
  of_append Hunk.Gains.refl hunks new

instance : Std.Refl HunksGrow := ⟨refl Hunk.Gains.refl⟩

instance : IsTrans (List Hunk) HunksGrow := ⟨fun _ _ _ => trans fun _ _ _ => Hunk.Gains.trans⟩

/-! ## Lines -/

variable {lineNumber : Nat} {line trimmed : Text} {s s' : StreamingParserState}

theorem handleHunkHeaders_grow (h : handleHunkHeadersAndEndPatch lineNumber trimmed s = .ok (some s')) :
    HunksGrow s.hunks s'.hunks := by
  unfold handleHunkHeadersAndEndPatch at h
  split at h
  · obtain ⟨_, -, h⟩ := except_bind_eq_ok.mp h
    cases h
    exact Std.Refl.refl _
  · split at h
    · obtain ⟨_, -, h⟩ := except_bind_eq_ok.mp h
      cases h
      exact hunksGrow_append _ _
    · split at h
      · obtain ⟨_, -, h⟩ := except_bind_eq_ok.mp h
        cases h
        exact hunksGrow_append _ _
      · split at h
        · obtain ⟨_, -, h⟩ := except_bind_eq_ok.mp h
          cases h
          exact hunksGrow_append _ _
        · cases h

theorem handledOr_grow {other : Except ParseError StreamingParserState}
    (h : handledOr (handleHunkHeadersAndEndPatch lineNumber trimmed s) other = .ok s')
    (hoth : other = .ok s' → HunksGrow s.hunks s'.hunks) : HunksGrow s.hunks s'.hunks := by
  cases hhandled : handleHunkHeadersAndEndPatch lineNumber trimmed s with
  | error e => rw [hhandled] at h; cases h
  | ok state =>
      rw [hhandled] at h
      cases state with
      | none => exact hoth h
      | some state =>
          cases h
          exact handleHunkHeaders_grow hhandled

theorem pushLine_grow (hchg : ∀ chunk : UpdateFileChunk, chunk.Gains (change chunk))
    (chunks : List UpdateFileChunk) : GrowsAtLast UpdateFileChunk.Gains chunks (pushLine change chunks) := by
  rcases eq_nil_or_concat' chunks with rfl | ⟨init, chunk, rfl⟩
  · exact .inl rfl
  · rw [pushLine, if_neg (by simp), modifyLast_concat]
    exact of_last (hchg chunk)

theorem modifyLast_grow (hchg : ∀ chunk : UpdateFileChunk, chunk.Gains (change chunk))
    (chunks : List UpdateFileChunk) : GrowsAtLast UpdateFileChunk.Gains chunks (chunks.modifyLast change) := by
  rcases eq_nil_or_concat' chunks with rfl | ⟨init, chunk, rfl⟩
  · exact .inl rfl
  · rw [modifyLast_concat]
    exact of_last (hchg chunk)

/-! What one line can do to a chunk: it is added to both sides or to one of them, or ends the file. -/

theorem UpdateFileChunk.gains_append (old new : List Text) :
    chunk.Gains { chunk with oldLines := chunk.oldLines ++ old, newLines := chunk.newLines ++ new } :=
  ⟨rfl, prefix_append _ _, prefix_append _ _, id⟩

theorem UpdateFileChunk.gains_newLines (new : List Text) :
    chunk.Gains { chunk with newLines := chunk.newLines ++ new } :=
  ⟨rfl, prefix_rfl, prefix_append _ _, id⟩

theorem UpdateFileChunk.gains_oldLines (old : List Text) :
    chunk.Gains { chunk with oldLines := chunk.oldLines ++ old } :=
  ⟨rfl, prefix_append _ _, prefix_rfl, id⟩

theorem UpdateFileChunk.gains_endOfFile : chunk.Gains { chunk with isEndOfFile := true } :=
  ⟨rfl, prefix_rfl, prefix_rfl, fun _ => rfl⟩

theorem processUpdateLine_gains {movePath movePath' : Option Text} {chunks chunks' : List UpdateFileChunk}
    (h : processUpdateLine lineNumber line movePath chunks = .ok (movePath', chunks')) (path : Text) :
    (Hunk.updateFile path movePath chunks).Gains (.updateFile path movePath' chunks') := by
  have happ : ∀ chunk, GrowsAtLast UpdateFileChunk.Gains chunks (chunks ++ [chunk]) := fun chunk =>
    of_append UpdateFileChunk.Gains.refl chunks [chunk]
  unfold processUpdateLine at h
  dsimp only at h
  split at h
  · -- The destination: it is read only while there is neither a destination nor a chunk.
    rename_i hmove
    cases h
    split at hmove
    · rename_i hemp
      exact .updateFile (.inr ⟨hemp.2, hemp.1⟩) (chunksGrow_refl _)
    · cases hmove
  · split at h
    · cases h
    · split at h
      · cases h
        exact .updateFile (.inl rfl) (happ _)
      · split at h
        · cases h
          exact .updateFile (.inl rfl) (happ _)
        · split at h
          · split at h
            · cases h
            · cases h
              exact .updateFile (.inl rfl) (modifyLast_grow (fun chunk => chunk.gains_endOfFile) _)
          · split at h
            · cases h
              exact .updateFile (.inl rfl) (pushLine_grow (fun chunk => chunk.gains_append _ _) _)
            · cases h
              exact .updateFile (.inl rfl) (pushLine_grow (fun chunk => chunk.gains_append _ _) _)
            · cases h
              exact .updateFile (.inl rfl) (pushLine_grow (fun chunk => chunk.gains_newLines _) _)
            · cases h
              exact .updateFile (.inl rfl) (pushLine_grow (fun chunk => chunk.gains_oldLines _) _)
            · split at h
              · cases h
              · cases h

theorem hunksGrow_of_getLast? (hlast : hunks.getLast? = some hunk)
    (h : hunk.Gains hunk') : HunksGrow hunks (hunks.dropLast ++ [hunk']) := by
  obtain ⟨init, rfl⟩ := getLast?_eq_some_iff.mp hlast
  rw [dropLast_concat]
  exact of_last h

theorem processLine_grow (h : processLine lineNumber line s = .ok s') : HunksGrow s.hunks s'.hunks := by
  unfold processLine at h
  dsimp only at h
  split at h
  · split at h
    · cases h
      exact Std.Refl.refl _
    · cases h
  · split at h
    · cases h
      exact Std.Refl.refl _
    · refine handledOr_grow h fun h => ?_
      cases h
  · refine handledOr_grow h fun h => ?_
    split at h
    · rename_i lineToAdd path contents _ hlast
      cases h
      refine hunksGrow_of_getLast? hlast (.addFile ?_)
      rw [append_assoc]
      exact prefix_append _ _
    · cases h
  · refine handledOr_grow h fun h => ?_
    cases h
  · refine handledOr_grow h fun h => ?_
    split at h
    · rename_i path movePath chunks hlast
      obtain ⟨⟨movePath', chunks'⟩, hline, h⟩ := except_bind_eq_ok.mp h
      cases h
      exact hunksGrow_of_getLast? hlast (processUpdateLine_gains hline path)
    · cases h
  · cases h
    exact Std.Refl.refl _

/-! ## Pieces of the text -/

namespace StreamingPatchParser

def Grows (p p' : StreamingPatchParser) : Prop := HunksGrow p.state.hunks p'.state.hunks

instance : Std.Refl Grows := ⟨fun p => Std.Refl.refl p.state.hunks⟩

instance : IsTrans StreamingPatchParser Grows := ⟨fun p _ _ => IsTrans.trans p.state.hunks _ _⟩

/-- A character that ends no line changes no hunk, and a line that is refused changes none either. -/
theorem pushChar_grows (ch : Char) : Eff.Respects Grows (pushChar ch) := by
  intro p
  unfold pushChar
  split
  · rw [takeLine]
    cases hline : processLine (p.lineNumber + 1) p.lineBuffer.stripCr p.state with
    | ok state => exact processLine_grow hline
    | error e => exact Std.Refl.refl p.state.hunks
  · exact Std.Refl.refl p.state.hunks

theorem pushDelta_grows (delta : Text) : Eff.Respects Grows (pushDelta delta) :=
  (Eff.Respects.each fun ch _ => pushChar_grows ch).bind fun _ => Eff.respects_read.bind fun _ => Eff.respects_pure _

theorem pushDelta_eq_ok {delta : Text} {p' : StreamingPatchParser}
    (h : pushDelta delta p = (.ok hunks, p')) : hunks = p'.state.hunks := by
  obtain ⟨_, p₁, -, h⟩ := Eff.bind_eq_ok.mp h
  cases h
  rfl

/-- The hunks that the pushes that succeed return, when the pieces are pushed one after another. -/
def snapshots : List Text → StreamingPatchParser → List (List Hunk)
  | [], _ => []
  | delta :: deltas, p =>
      match pushDelta delta p with
      | (.ok hunks, p') => hunks :: snapshots deltas p'
      | (.error _, p') => snapshots deltas p'

theorem grows_of_mem_snapshots {deltas : List Text}
    (h : hunks ∈ snapshots deltas p) : HunksGrow p.state.hunks hunks := by
  induction deltas generalizing p with
  | nil => cases h
  | cons delta deltas ih =>
      have hgr := pushDelta_grows delta p
      rw [snapshots] at h
      rcases hpush : pushDelta delta p with ⟨e | returned, p'⟩
      · rw [hpush] at h hgr
        exact IsTrans.trans _ _ _ hgr (ih h)
      · rw [hpush] at h hgr
        rcases mem_cons.mp h with rfl | h
        · rw [pushDelta_eq_ok hpush]
          exact hgr
        · exact IsTrans.trans _ _ _ hgr (ih h)

/-- Whatever pieces are pushed, the hunks that a push returns have grown from those of each push before it. -/
theorem snapshots_only_grow (deltas : List Text) (p : StreamingPatchParser) :
    (snapshots deltas p).Pairwise HunksGrow := by
  induction deltas generalizing p with
  | nil => exact .nil
  | cons delta deltas ih =>
      rw [snapshots]
      rcases hpush : pushDelta delta p with ⟨e | returned, p'⟩
      · exact ih p'
      · refine List.Pairwise.cons (fun hunks h => ?_) (ih p')
        rw [pushDelta_eq_ok hpush]
        exact grows_of_mem_snapshots h

end StreamingPatchParser

end CodexStudy.ApplyPatch
