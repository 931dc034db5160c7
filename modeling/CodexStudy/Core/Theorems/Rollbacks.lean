import CodexStudy.Core.Theorems.Fork

/-!
# Rollbacks

Two rollbacks leave what one rollback of their turns leaves.
-/

namespace CodexStudy.Core

open CodexStudy.Lib ContextManager Nat Bool TurnPositions RolloutEntry Option

variable {rd : ItemReaders}

/-! ## Two rollbacks -/

theorem trimmedCut_le (snapshot : List ResponseItem) (first cut : Nat) : trimmedCut rd snapshot first cut ≤ cut := by
  induction cut with
  | zero => exact le_rfl
  | succ cut ih =>
      rw [trimmedCut_succ]
      split
      · exact ih.trans (le_succ cut)
      · exact le_rfl

theorem trimmedCut_take {snapshot : List ResponseItem} {first cut length : Nat} (h : cut ≤ length) :
    trimmedCut rd (snapshot.take length) first cut = trimmedCut rd snapshot first cut := by
  induction cut with
  | zero => rfl
  | succ cut ih =>
      rw [trimmedCut_succ, trimmedCut_succ, ih (by omega), List.getElem?_take_of_lt (by omega)]

variable (cm : ContextManager) (n : UInt32)

theorem dropLastNUserTurns_starts :
    (cm.dropLastNUserTurns rd n).items <+: cm.items := by
  by_cases hn : n = 0
  · rw [hn, dropLastNUserTurns_zero]
  · cases hp : userMessagePositions rd cm.items with
    | nil => simp [dropLastNUserTurns, hp, replace]
    | cons first rest =>
        rw [dropLastNUserTurns_items hn hp]
        exact List.take_prefix _ _

theorem userTurns_dropLastNUserTurns :
    userTurns rd (cm.dropLastNUserTurns rd n).items = userTurns rd cm.items - n.toNat := by
  rw [userTurns, userTurns, List.countP_eq_length_filter, filter_dropLastNUserTurns, List.rdrop,
    List.length_take, List.countP_eq_length_filter, min_eq_left (sub_le _ _)]

variable {more : List ResponseItem} {idx start : Nat} {positions : List Nat}

theorem userMessagePositions_starts {items : List ResponseItem} (h : items <+: more) :
    userMessagePositions rd items <+: userMessagePositions rd more := by
  obtain ⟨rest, rfl⟩ := h
  rw [userMessagePositions, userMessagePositions, List.findIdxs_append]
  exact List.prefix_append _ _

theorem leading_of_starts {items : List ResponseItem} (h : items <+: more) (htns : 0 < userTurns rd items) :
    leading rd items = leading rd more := by
  obtain ⟨rest, rfl⟩ := h
  obtain ⟨turn, hturn, hops⟩ := List.countP_pos_iff.mp htns
  have hall : (items.takeWhile fun item => !isUserTurnBoundary rd item).length ≠ items.length := by
    intro hlen
    have heq := (List.takeWhile_prefix fun item => !isUserTurnBoundary rd item).eq_of_length hlen
    have hnot := List.takeWhile_eq_self_iff.mp heq turn hturn
    rw [hops] at hnot
    cases hnot
  rw [leading, leading, List.takeWhile_append, if_neg hall]

theorem leading_starts_dropLastNUserTurns :
    leading rd cm.items <+: (cm.dropLastNUserTurns rd n).items := by
  rcases lt_or_ge n.toNat (userTurns rd cm.items) with hlt | hge
  · rw [← leading_of_starts (dropLastNUserTurns_starts cm n) (userTurns_dropLastNUserTurns_pos cm hlt)]
    exact List.takeWhile_prefix _
  · rw [dropLastNUserTurns_all cm hge]

theorem dropLastNUserTurns_add {n m : UInt32} (h : n.toNat + m.toNat < 2 ^ 32) :
    ((cm.dropLastNUserTurns rd n).dropLastNUserTurns rd m).items = (cm.dropLastNUserTurns rd (n + m)).items := by
  have hadd : (n + m).toNat = n.toNat + m.toNat := by
    rw [UInt32.toNat_add]
    exact mod_eq_of_lt h
  have htns : userTurns rd (cm.dropLastNUserTurns rd n).items = _ := userTurns_dropLastNUserTurns cm n
  rcases lt_or_ge n.toNat (userTurns rd cm.items) with hlt | hge
  · rcases lt_or_ge (n.toNat + m.toNat) (userTurns rd cm.items) with hlt' | hge'
    · by_cases hn : n = 0
      · rw [hn, UInt32.zero_add, dropLastNUserTurns_zero]
      by_cases hm : m = 0
      · rw [hm, UInt32.add_zero, dropLastNUserTurns_zero]
      have hn0 : 0 < n.toNat := pos_of_ne_zero fun h0 => hn (UInt32.toNat_inj.mp h0)
      have hm0 : 0 < m.toNat := pos_of_ne_zero fun h0 => hm (UInt32.toNat_inj.mp h0)
      have hnm : n + m ≠ 0 := by
        intro h0
        rw [h0, UInt32.toNat_zero] at hadd
        omega
      cases hp : userMessagePositions rd cm.items with
      | nil =>
          rw [← length_userMessagePositions, hp] at hlt
          cases hlt
      | cons first rest =>
          -- The first rollback leaves the first positions.
          have hsts : userMessagePositions rd (cm.dropLastNUserTurns rd n).items <+: first :: rest :=
            hp ▸ userMessagePositions_starts (dropLastNUserTurns_starts cm n)
          cases hp' : userMessagePositions rd (cm.dropLastNUserTurns rd n).items with
          | nil =>
              rw [← length_userMessagePositions, hp', List.length_nil] at htns
              omega
          | cons first' rest' =>
              rw [hp'] at hsts
              obtain ⟨rfl, -⟩ := List.cons_prefix_cons.mp hsts
              have hlen : (first' :: rest').length = userTurns rd cm.items - n.toNat := by
                rw [← hp', length_userMessagePositions, htns]
              -- The cut of the second rollback is a turn that the first one has left.
              have hlt'' : userTurns rd cm.items - n.toNat - m.toNat < (first' :: rest').length := by omega
              have hcut : (first' :: rest').getD (userTurns rd cm.items - n.toNat - m.toNat) 0 =
                  (first' :: rest).getD (userTurns rd cm.items - (n + m).toNat) 0 := by
                obtain ⟨more, hmore⟩ := hsts
                rw [← hmore, List.getD_append _ _ _ _ (by omega), hadd, Nat.sub_sub]
              have hmem : (first' :: rest').getD (userTurns rd cm.items - n.toNat - m.toNat) 0 ∈
                  userMessagePositions rd (cm.dropLastNUserTurns rd n).items := by
                rw [hp', List.getD_eq_getElem _ _ hlt'']
                exact List.getElem_mem _
              obtain ⟨hin, -⟩ := List.mem_findIdxs_iff_exists_getElem_pos.mp hmem
              rw [dropLastNUserTurns_items hm hp', dropLastNUserTurns_items hnm hp, htns, if_neg (by omega),
                if_neg (by omega)]
              rw [hcut] at hin ⊢
              have hits : (cm.dropLastNUserTurns rd n).items <+: cm.items := dropLastNUserTurns_starts cm n
              generalize (cm.dropLastNUserTurns rd n).items = items at hin hits
              generalize (first' :: rest).getD (userTurns rd cm.items - (n + m).toNat) 0 = cut at hin
              have hwalk : trimmedCut rd items first' cut = trimmedCut rd cm.items first' cut := by
                conv_lhs => rw [List.prefix_iff_eq_take.mp hits]
                exact trimmedCut_take hin.le
              obtain ⟨more, hmore⟩ := hits
              have hle : trimmedCut rd cm.items first' cut ≤ cut := trimmedCut_le _ _ _
              rw [hwalk, ← hmore, List.take_append_of_le_length (by rw [hmore]; omega)]
    · rw [dropLastNUserTurns_all cm (by omega), dropLastNUserTurns_all _ (by omega)]
      exact leading_of_starts (dropLastNUserTurns_starts cm n) (userTurns_dropLastNUserTurns_pos cm hlt)
  · -- Nothing is left for the second rollback.
    rw [dropLastNUserTurns_all cm (by omega), dropLastNUserTurns_all _ (by omega), dropLastNUserTurns_all cm hge,
      leading_of_userTurns_eq_zero (userTurns_leading cm.items)]

/-- Rollbacks together leave what one rollback of all their turns leaves. Each leaves the first items of the history,
among them all turns but the last ones and everything in front of the first. -/
theorem rollbacks_compose (cm : ContextManager) (n m : UInt32) (h : n.toNat + m.toNat < 2 ^ 32) :
    ((cm.dropLastNUserTurns rd n).dropLastNUserTurns rd m).items = (cm.dropLastNUserTurns rd (n + m)).items ∧
      (cm.dropLastNUserTurns rd n).items <+: cm.items ∧
      (cm.dropLastNUserTurns rd n).items.filter (isUserTurnBoundary rd) =
        (cm.items.filter (isUserTurnBoundary rd)).rdrop n.toNat ∧
      leading rd cm.items <+: (cm.dropLastNUserTurns rd n).items :=
  ⟨dropLastNUserTurns_add cm h, dropLastNUserTurns_starts cm n, filter_dropLastNUserTurns cm n,
    leading_starts_dropLastNUserTurns cm n⟩

theorem rollbacks_compose_of_mail : ((1 : UInt32).toNat + (1 : UInt32).toNat < 2 ^ 32) ∧
      ((dropLastNUserTurns mailReaders ⟨parentHistory mailReaders (mailRolledBack.take 2), none⟩ 1).dropLastNUserTurns
        mailReaders 1).items = [] := by
  obtain ⟨h, -⟩ := @rollbacks_compose mailReaders ⟨parentHistory mailReaders (mailRolledBack.take 2), none⟩ 1 1
    (by decide)
  exact ⟨by decide, h.trans (by decide +kernel)⟩

/-! ## Positions of the history -/

section

variable {items : List RolloutItem} {item : RolloutItem}

theorem trackedReplay_concat (items : List RolloutItem) (item : RolloutItem) :
    trackedReplay rd (items ++ [item]) = (trackedReplay rd items).step rd (item, items.length) := by
  simp [trackedReplay, List.zipIdx_append]

theorem isAt_concat {kind : ResponseItem → Bool} (h : idx < items.length) :
    isAt (items ++ [item]) kind idx = isAt items kind idx := by
  rw [isAt, isAt, List.getElem?_append_left h]

theorem isAt_length {kind : ResponseItem → Bool} (response : ResponseItem) :
    isAt (items ++ [.responseItem response]) kind items.length = kind response := by
  rw [isAt, List.getElem?_concat_length]

/-- The item of the history is the one at the position, up to the shortening of outputs. -/
def HoldsAt (rd : ItemReaders) (items : List RolloutItem) (idx : Nat) (item : ResponseItem) : Prop :=
  ∃ raw, items[idx]? = some (.responseItem raw) ∧ item = processItem rd raw

structure Tracks (rd : ItemReaders) (items : List RolloutItem) (tracked : TrackedHistory) : Prop where
  sorted : tracked.positions.Pairwise (· < ·)
  lt : ∀ idx ∈ tracked.positions, idx < items.length
  items : List.Forall₂ (HoldsAt rd items) tracked.positions tracked.history.items

def rolloutItems (rollout : List RolloutEntry) : List RolloutItem := rollout.map RolloutEntry.item

theorem rolloutItems_concat (rollout : List RolloutEntry) (entry : RolloutEntry) :
    rolloutItems (rollout ++ [entry]) = rolloutItems rollout ++ [entry.item] := List.map_append

variable (rd) in
theorem tracks_trackedReplay (rollout : List RolloutEntry) :
    Tracks rd (rolloutItems rollout) (trackedReplay rd (rolloutItems rollout)) := by
  induction rollout using List.reverseRecOn with
  | nil => exact ⟨List.Pairwise.nil, fun idx hidx => absurd hidx List.not_mem_nil, List.Forall₂.nil⟩
  | append_singleton rollout entry ih =>
      rw [rolloutItems_concat, trackedReplay_concat]
      generalize rolloutItems rollout = items at ih ⊢
      generalize trackedReplay rd items = tracked at ih ⊢
      have hlater : ∀ idx item, HoldsAt rd items idx item → HoldsAt rd (items ++ [entry.item]) idx item := by
        rintro idx item ⟨raw, hraw, hitem⟩
        obtain ⟨hidx, -⟩ := List.getElem?_eq_some_iff.mp hraw
        exact ⟨raw, by rw [List.getElem?_append_left hidx, hraw], hitem⟩
      have hlength : (items ++ [entry.item]).length = items.length + 1 := List.length_append
      cases entry with
      | responseItem item =>
          simp only [RolloutEntry.item, TrackedHistory.step, replayItem, recordItem]
          by_cases hapi : isApiMessage item
          · rw [if_pos hapi, if_pos hapi]
            refine ⟨?_, ?_, ?_⟩
            · rw [List.pairwise_append]
              exact ⟨ih.sorted, List.pairwise_singleton _ _, fun idx hidx last hlast => by
                rw [List.mem_singleton.mp hlast]
                exact ih.lt idx hidx⟩
            · intro idx hidx
              rw [List.length_append, List.length_singleton]
              rcases List.mem_append.mp hidx with hidx | hidx
              · exact (ih.lt idx hidx).trans (lt_succ_self _)
              · rw [List.mem_singleton.mp hidx]
                exact lt_succ_self _
            · exact List.rel_append (ih.items.imp hlater) (.cons ⟨item, List.getElem?_concat_length, rfl⟩ .nil)
          · rw [if_neg hapi, if_neg hapi]
            refine ⟨ih.sorted, fun idx hidx => ?_, ih.items.imp hlater⟩
            rw [List.length_append]
            exact (ih.lt idx hidx).trans (lt_succ_self _)
      | threadRolledBack numTurns =>
          have hleft := List.prefix_iff_eq_take.mp (@dropLastNUserTurns_starts rd tracked.history numTurns)
          simp only [item, TrackedHistory.step, replayItem]
          refine ⟨ih.sorted.sublist (List.take_sublist _ _), fun idx hidx => ?_, ?_⟩
          · rw [List.length_append]
            exact (ih.lt idx (List.mem_of_mem_take hidx)).trans (lt_succ_self _)
          · have htake := List.forall₂_take (tracked.history.dropLastNUserTurns rd numTurns).items.length ih.items
            rw [← hleft] at htake
            exact htake.imp hlater

end

/-! ## Kinds of items -/

section

variable {item : ResponseItem}

theorem isApiMessage_of_isUserTurnBoundary (h : isUserTurnBoundary rd item = true) : isApiMessage item = true := by
  cases item with
  | message id role content phase =>
      simp only [isUserTurnBoundary, or_eq_true, and_eq_true, beq_iff_eq] at h
      rcases h with ⟨rfl, -⟩ | ⟨rfl, -⟩
      · rfl
      · rfl
  | _ => cases h

variable (rd) in
theorem isUserTurnBoundary_processItem (item : ResponseItem) :
    isUserTurnBoundary rd (processItem rd item) = isUserTurnBoundary rd item := by
  cases item <;> rfl

variable (rd) in
theorem isRealUserMessageBoundary_processItem (item : ResponseItem) :
    isRealUserMessageBoundary rd (processItem rd item) = isRealUserMessageBoundary rd item := by
  cases item <;> rfl

theorem isUserTurnBoundary_of_isRealUserMessageBoundary (h : isRealUserMessageBoundary rd item = true) :
    isUserTurnBoundary rd item = true := by
  cases item with
  | message id role content phase =>
      unfold isRealUserMessageBoundary parseTurnItem parseUserMessage at h
      dsimp only at h
      by_cases hrole : role = "user"
      · by_cases hctx : isContextualUserMessageContent rd content = true
        · rw [if_pos hrole, if_pos hctx] at h
          split at h
          · rename_i hitem
            split at hitem
            · cases hitem
            · cases hitem
          · cases h
        · simp [isUserTurnBoundary, hrole, hctx]
      · rw [if_neg hrole] at h
        split at h
        · rename_i hitem
          split at hitem
          · cases hitem
          · cases hitem
        · cases h
  | _ => cases h

theorem isUserTurnBoundary_of_isForkTurnBoundary {rd : AgentMessageReaders}
    (h : isForkTurnBoundary rd item = true) : isUserTurnBoundary rd.toItemReaders item = true := by
  rcases (or_eq_true _ _).mp h with h | h
  · exact isUserTurnBoundary_of_isRealUserMessageBoundary h
  · cases item with
    | message id role content phase =>
        obtain ⟨hrole, hcont⟩ := (and_eq_true _ _).mp h
        refine (or_eq_true _ _).mpr (.inr ((and_eq_true _ _).mpr ⟨hrole, ?_⟩))
        split at hcont
        · exact congrArg isSome (eq_of_beq hcont)
        · exact congrArg isSome (eq_of_beq hcont)
        · cases hcont
    | _ => cases h

end

/-! ## The stack of turns -/

section

variable {rollout : List RolloutEntry} {kind : ResponseItem → Bool}

variable (rd) in
def turnPositions (rollout : List RolloutEntry) : List Nat :=
  survivingPositions rd (rolloutItems rollout) (isUserTurnBoundary rd)

theorem sorted_turnPositions (rollout : List RolloutEntry) : (turnPositions rd rollout).Pairwise (· < ·) :=
  (tracks_trackedReplay rd rollout).sorted.filter _

theorem lt_of_mem_turnPositions (h : idx ∈ turnPositions rd rollout) : idx < (rolloutItems rollout).length :=
  (tracks_trackedReplay rd rollout).lt idx (List.mem_filter.mp h).1

theorem map_isAt_of_forall₂ {items : List RolloutItem} {history : List ResponseItem}
    (hkind : ∀ item, kind (processItem rd item) = kind item) (h : List.Forall₂ (HoldsAt rd items) positions history) :
    (positions.filter (isAt items (isUserTurnBoundary rd))).map (isAt items kind) =
      (history.filter (isUserTurnBoundary rd)).map kind := by
  induction h with
  | nil => rfl
  | @cons idx item positions history hitem _ ih =>
      obtain ⟨raw, hraw, rfl⟩ := hitem
      have hat : ∀ kind, isAt items kind idx = kind raw := by
        intro kind
        rw [isAt, hraw]
      by_cases hturn : isUserTurnBoundary rd raw = true
      · rw [List.filter_cons_of_pos (by rw [hat, hturn]),
          List.filter_cons_of_pos (by rw [isUserTurnBoundary_processItem, hturn]), List.map_cons, List.map_cons, ih,
          hat, hkind]
      · rw [List.filter_cons_of_neg (by rwa [hat]), List.filter_cons_of_neg (by rwa [isUserTurnBoundary_processItem]), ih]

theorem map_isAt_turnPositions (rollout : List RolloutEntry) (hkind : ∀ item, kind (processItem rd item) = kind item) :
    (turnPositions rd rollout).map (isAt (rolloutItems rollout) kind) =
      ((trackedReplay rd (rolloutItems rollout)).history.items.filter (isUserTurnBoundary rd)).map kind :=
  map_isAt_of_forall₂ hkind (tracks_trackedReplay rd rollout).items

theorem filter_isAt_concat {items : List RolloutItem} (h : ∀ idx ∈ positions, idx < items.length)
    (item : RolloutItem) : positions.filter (isAt (items ++ [item]) kind) = positions.filter (isAt items kind) :=
  List.filter_congr fun idx hidx => isAt_concat (h idx hidx)

theorem turnPositions_responseItem (rollout : List RolloutEntry) (item : ResponseItem) :
    turnPositions rd (rollout ++ [.responseItem item]) =
      if isUserTurnBoundary rd item then turnPositions rd rollout ++ [rollout.length]
      else turnPositions rd rollout := by
  have hlt := (tracks_trackedReplay rd rollout).lt
  have hlen : (rolloutItems rollout).length = rollout.length := List.length_map _
  have hat : isAt (rolloutItems rollout ++ [.responseItem item]) (isUserTurnBoundary rd) (rolloutItems rollout).length =
      isUserTurnBoundary rd item := isAt_length item
  rw [turnPositions, turnPositions, survivingPositions, survivingPositions, rolloutItems_concat, trackedReplay_concat]
  change (if isApiMessage item then (trackedReplay rd (rolloutItems rollout)).positions ++ [(rolloutItems rollout).length]
    else (trackedReplay rd (rolloutItems rollout)).positions).filter
      (isAt (rolloutItems rollout ++ [.responseItem item]) (isUserTurnBoundary rd)) = _
  by_cases hturn : isUserTurnBoundary rd item = true
  · rw [if_pos (isApiMessage_of_isUserTurnBoundary hturn), if_pos hturn, List.filter_append, filter_isAt_concat hlt,
      List.filter_cons_of_pos (hat.trans hturn), List.filter_nil, hlen]
  · rw [if_neg hturn]
    split
    · rw [List.filter_append, filter_isAt_concat hlt, List.filter_cons_of_neg (by rwa [hat]), List.filter_nil, List.append_nil]
    · exact filter_isAt_concat hlt _

theorem turnPositions_threadRolledBack (rollout : List RolloutEntry) (n : UInt32) :
    turnPositions rd (rollout ++ [.threadRolledBack n]) =
      (turnPositions rd rollout).take ((turnPositions rd rollout).length - n.toNat) := by
  have hlt := (tracks_trackedReplay rd rollout).lt
  have hlen : ∀ rollout : List RolloutEntry, (turnPositions rd rollout).length =
      ((trackedReplay rd (rolloutItems rollout)).history.items.filter (isUserTurnBoundary rd)).length := by
    intro rollout
    have hmap := congrArg List.length (map_isAt_turnPositions rollout (isUserTurnBoundary_processItem rd))
    rwa [List.length_map, List.length_map] at hmap
  have hhistory : (trackedReplay rd (rolloutItems (rollout ++ [.threadRolledBack n]))).history =
      (trackedReplay rd (rolloutItems rollout)).history.dropLastNUserTurns rd n := by
    rw [rolloutItems_concat, trackedReplay_concat]
    rfl
  have hsts : turnPositions rd (rollout ++ [.threadRolledBack n]) <+: turnPositions rd rollout := by
    rw [turnPositions, turnPositions, survivingPositions, survivingPositions, rolloutItems_concat, trackedReplay_concat,
      ← filter_isAt_concat hlt (threadRolledBack n).item]
    exact (List.take_prefix _ _).filter _
  rw [List.prefix_iff_eq_take.mp hsts, hlen, hhistory, filter_dropLastNUserTurns, List.rdrop, List.length_take,
    ← hlen, min_eq_left (sub_le _ _)]

theorem filter_turnPositions_responseItem (hkind : ∀ item, kind item = true → isUserTurnBoundary rd item = true)
    (rollout : List RolloutEntry) (item : ResponseItem) :
    (turnPositions rd (rollout ++ [.responseItem item])).filter (isAt (rolloutItems (rollout ++ [.responseItem item])) kind) =
      if kind item then (turnPositions rd rollout).filter (isAt (rolloutItems rollout) kind) ++ [rollout.length]
      else (turnPositions rd rollout).filter (isAt (rolloutItems rollout) kind) := by
  have hlt : ∀ idx ∈ turnPositions rd rollout, idx < (rolloutItems rollout).length :=
    fun idx hidx => lt_of_mem_turnPositions hidx
  have hat : isAt (rolloutItems rollout ++ [.responseItem item]) kind rollout.length = kind item := by
    rw [← (List.length_map _ : (rolloutItems rollout).length = rollout.length)]
    exact isAt_length item
  rw [turnPositions_responseItem, rolloutItems_concat]
  simp only [RolloutEntry.item]
  by_cases hitem : kind item = true
  · rw [if_pos hitem, if_pos (hkind item hitem), List.filter_append, filter_isAt_concat hlt,
      List.filter_cons_of_pos (hat.trans hitem), List.filter_nil]
  · rw [if_neg hitem]
    split
    · rw [List.filter_append, filter_isAt_concat hlt, List.filter_cons_of_neg (by rwa [hat]), List.filter_nil,
        List.append_nil]
    · rw [filter_isAt_concat hlt]

theorem survivingPositions_eq_filter (hkind : ∀ item, kind item = true → isUserTurnBoundary rd item = true)
    (rollout : List RolloutEntry) : survivingPositions rd (rolloutItems rollout) kind =
      (turnPositions rd rollout).filter (isAt (rolloutItems rollout) kind) := by
  rw [turnPositions, survivingPositions, survivingPositions, List.filter_filter]
  refine List.filter_congr fun idx _ => ?_
  rw [isAt, isAt]
  split
  · rename_i item _
    cases hitem : kind item with
    | true => rw [hkind item hitem]; rfl
    | false => rfl
  · rfl

end

/-! ## Fork turns -/

theorem filter_lt_eq_take (hsrt : positions.Pairwise (· < ·)) {k : Nat}
    (h : positions[k]? = some start) : positions.filter (· < start) = positions.take k := by
  obtain ⟨hk, hst⟩ := List.getElem?_eq_some_iff.mp h
  have hbef : ∀ idx ∈ positions.take k, idx < start := by
    intro idx hidx
    obtain ⟨i, hi, rfl⟩ := List.mem_iff_getElem.mp hidx
    rw [List.length_take] at hi
    rw [List.getElem_take, ← hst]
    exact List.pairwise_iff_getElem.mp hsrt i k (by omega) hk (by omega)
  have hbeh : ∀ idx ∈ positions.drop k, start ≤ idx := by
    intro idx hidx
    obtain ⟨i, hi, rfl⟩ := List.mem_iff_getElem.mp hidx
    rw [List.length_drop] at hi
    rw [List.getElem_drop, ← hst]
    rcases Nat.eq_zero_or_pos i with rfl | hpos
    · exact le_rfl
    · exact (List.pairwise_iff_getElem.mp hsrt k (k + i) hk (by omega) (by omega)).le
  conv_lhs => rw [← List.take_append_drop k positions]
  rw [List.filter_append, List.filter_eq_self.mpr fun idx hidx => decide_eq_true (hbef idx hidx),
    List.filter_eq_nil_iff.mpr fun idx hidx => by simpa using hbeh idx hidx, List.append_nil]

section

variable {rd : AgentMessageReaders}

/-- A rollback starts at the first turn that it takes, or at the first turn of all. -/
theorem rollbackStart_eq (positions : List Nat) {n : Nat} (hn : n ≠ 0) :
    ((if n ≤ positions.length then positions[positions.length - n]? else none).or positions.head?) =
      positions[positions.length - n]? := by
  split
  · rw [List.getElem?_eq_getElem (by omega), some_or]
  · rw [none_or, List.head?_eq_getElem?, Nat.sub_eq_zero_of_le (by omega)]

theorem foldl_turnPositions (rollout : List RolloutEntry) : (rolloutItems rollout).zipIdx.foldl (step rd) ⟨[], []⟩ =
      { rollbackTurnPositions := turnPositions rd.toItemReaders rollout
        forkTurnPositions := (turnPositions rd.toItemReaders rollout).filter
          (isAt (rolloutItems rollout) (isForkTurnBoundary rd)) } := by
  induction rollout using List.reverseRecOn with
  | nil => rfl
  | append_singleton rollout entry ih =>
      have hlt : ∀ idx ∈ turnPositions rd.toItemReaders rollout, idx < (rolloutItems rollout).length :=
        fun idx hidx => lt_of_mem_turnPositions hidx
      have hlen : (rolloutItems rollout).length = rollout.length := List.length_map _
      have hstep : (rolloutItems (rollout ++ [entry])).zipIdx.foldl (step rd) ⟨[], []⟩ =
          ((rolloutItems rollout).zipIdx.foldl (step rd) ⟨[], []⟩).step rd
            (entry.item, rollout.length) := by
        rw [rolloutItems_concat, List.zipIdx_append, List.foldl_append, zero_add, hlen]
        rfl
      rw [hstep, ih]
      cases entry with
      | responseItem item =>
          rw [filter_turnPositions_responseItem fun _ => isUserTurnBoundary_of_isForkTurnBoundary, turnPositions_responseItem]
          simp only [RolloutEntry.item, step]
      | threadRolledBack n =>
          rw [turnPositions_threadRolledBack, rolloutItems_concat,
            filter_isAt_concat fun idx hidx => hlt idx (List.mem_of_mem_take hidx)]
          have hsrt := @sorted_turnPositions rd.toItemReaders rollout
          generalize turnPositions rd.toItemReaders rollout = positions at hsrt
          simp only [item, step]
          by_cases hn : n.toNat = 0
          · rw [if_pos hn, hn, Nat.sub_zero, List.take_length]
          · rw [if_neg hn, rollbackStart_eq _ hn]
            cases hget : positions[positions.length - n.toNat]? with
            | none =>
                have hnil : positions = [] := by
                  have hle := List.getElem?_eq_none_iff.mp hget
                  exact List.length_eq_zero_iff.mp (by omega)
                rw [hnil, List.take_nil]
            | some start =>
                dsimp only
                rw [List.filter_comm, filter_lt_eq_take hsrt hget]

/-- The fork turns are, in order, the user messages and the triggering messages of agents that the replay leaves. -/
theorem fork_turn_positions_survive (rollout : List RolloutEntry) : forkTurnPositionsInRollout rd (rollout.map item) =
        survivingPositions rd.toItemReaders (rollout.map item) (isForkTurnBoundary rd) ∧
      (forkTurnPositionsInRollout rd (rollout.map item)).Pairwise (· < ·) := by
  have hpositions : forkTurnPositionsInRollout rd (rolloutItems rollout) =
      (turnPositions rd.toItemReaders rollout).filter (isAt (rolloutItems rollout) (isForkTurnBoundary rd)) :=
    congrArg forkTurnPositions (foldl_turnPositions rollout)
  change forkTurnPositionsInRollout rd (rolloutItems rollout) =
      survivingPositions rd.toItemReaders (rolloutItems rollout) (isForkTurnBoundary rd) ∧
    (forkTurnPositionsInRollout rd (rolloutItems rollout)).Pairwise (· < ·)
  rw [hpositions, survivingPositions_eq_filter fun _ => isUserTurnBoundary_of_isForkTurnBoundary]
  exact ⟨rfl, (sorted_turnPositions rollout).filter _⟩

/-! ## The last fork turns -/

def allTurns (rd : AgentMessageReaders) (items : List RolloutItem) : TurnPositions :=
  items.zipIdx.foldl (step rd) ⟨[], []⟩

theorem allTurns_concat (items : List RolloutItem) (item : RolloutItem) :
    allTurns rd (items ++ [item]) = (allTurns rd items).step rd (item, items.length) := by
  simp [allTurns, List.zipIdx_append]

structure TurnPositions.Within (positions : TurnPositions) (n : Nat) : Prop where
  rollback : ∀ idx ∈ positions.rollbackTurnPositions, idx < n
  fork : ∀ idx ∈ positions.forkTurnPositions, idx < n
  sorted : positions.forkTurnPositions.Pairwise (· < ·)

theorem within_allTurns (rd : AgentMessageReaders) (items : List RolloutItem) :
    (allTurns rd items).Within items.length := by
  induction items using List.reverseRecOn with
  | nil => exact ⟨by simp [allTurns], by simp [allTurns], .nil⟩
  | append_singleton items item ih =>
      obtain ⟨hrollback, hfork, hsorted⟩ := ih
      rw [allTurns_concat, List.length_append, List.length_singleton]
      unfold step
      split
      next heq =>
        cases heq
        refine ⟨by grind, by grind, ?_⟩
        dsimp only
        split
        · exact List.pairwise_append.mpr ⟨hsorted, List.pairwise_singleton .., by simpa using hfork⟩
        · exact hsorted
      next => exact ⟨by grind, by grind, by grind⟩
      next => exact ⟨by grind, by grind, hsorted⟩

def TurnPositions.behind (front back : TurnPositions) (start : Nat) : TurnPositions where
  rollbackTurnPositions := front.rollbackTurnPositions ++ back.rollbackTurnPositions.map (· + start)
  forkTurnPositions := front.forkTurnPositions ++ back.forkTurnPositions.map (· + start)

/-- A rollback that leaves the first position behind `front` takes nothing of `front`. -/
theorem step_behind {front back : TurnPositions} (hfront : front.Within start) (item : RolloutItem) (idx : Nat)
    (hmem : start ∈ ((front.behind back start).step rd (item, idx + start)).forkTurnPositions) :
    (front.behind back start).step rd (item, idx + start) = front.behind (back.step rd (item, idx)) start := by
  cases item with
  | responseItem item =>
      simp only [behind, step]
      congr 1 <;> split <;> simp
  | eventMsg event =>
      cases event with
      | threadRolledBack numTurns =>
          simp only [step] at hmem ⊢
          by_cases hn : numTurns.toNat = 0
          · rw [if_pos hn, if_pos hn]
          · rw [if_neg hn, rollbackStart_eq _ hn] at hmem ⊢
            rw [if_neg hn, rollbackStart_eq _ hn]
            generalize numTurns.toNat = n at hmem
            obtain ⟨A, FA⟩ := front
            obtain ⟨B, FB⟩ := back
            obtain ⟨hA, hFA, -⟩ := hfront
            simp only [behind, List.length_append, List.length_map] at *
            by_cases hlen : A.length ≤ A.length + B.length - n
            · have hidx : A.length + B.length - n - A.length = B.length - n := by omega
              rw [List.getElem?_append_right hlen, hidx, List.getElem?_map]
              cases B[B.length - n]? with
              | none => rfl
              | some first =>
                  have hbefore : FA.filter (· < first + start) = FA :=
                    List.filter_eq_self.mpr fun idx hidx => decide_eq_true (Nat.lt_add_left _ (hFA idx hidx))
                  simp only [map_some, List.take_append, List.filter_append, hidx, List.map_take,
                    List.take_of_length_le hlen, hbefore, List.filter_map, Function.comp_def, add_lt_add_iff_right]
            · have hless : A.length + B.length - n < A.length := by omega
              rw [List.getElem?_append_left hless, List.getElem?_eq_getElem hless] at hmem
              have hfirst := hA _ (List.getElem_mem hless)
              have hkept := List.of_mem_filter hmem
              simp only [decide_eq_true_eq] at hkept
              omega
      | _ => rfl
  | _ => rfl

theorem mem_step {positions : TurnPositions} {item : RolloutItem} {idx' : Nat}
    (h : idx' ∈ (positions.step rd (item, idx)).forkTurnPositions) : idx' ∈ positions.forkTurnPositions ∨ idx' = idx := by
  unfold step at h
  grind

theorem allTurns_append {front back : List RolloutItem}
    (hmem : front.length ∈ (allTurns rd (front ++ back)).forkTurnPositions) :
    allTurns rd (front ++ back) = (allTurns rd front).behind (allTurns rd back) front.length := by
  induction back using List.reverseRecOn with
  | nil =>
      rw [List.append_nil] at hmem
      exact absurd ((within_allTurns rd front).fork _ hmem) (lt_irrefl _)
  | append_singleton back item ih =>
      rw [← List.append_assoc, allTurns_concat, List.length_append, add_comm] at hmem ⊢
      have heq : allTurns rd (front ++ back) = (allTurns rd front).behind (allTurns rd back) front.length := by
        obtain hearlier | hlast := mem_step hmem
        · exact ih hearlier
        · have hnil : back = [] := List.length_eq_zero_iff.mp (by omega)
          simp [hnil, behind, allTurns]
      rw [heq] at hmem ⊢
      rw [allTurns_concat]
      exact step_behind (within_allTurns rd front) item back.length hmem

/-- What is left of a rollout are its items from some place on, and their fork turns are its last ones. -/
theorem last_fork_turns_kept (items : List RolloutItem) (n : Nat) : ∃ start,
    truncateRolloutToLastNForkTurns rd items n = items.drop start ∧
      (forkTurnPositionsInRollout rd (items.drop start)).map (· + start) =
        (forkTurnPositionsInRollout rd items).rtake n := by
  unfold truncateRolloutToLastNForkTurns List.rtake
  split
  next hzero => exact ⟨items.length, by simp, by simp [hzero, forkTurnPositionsInRollout]⟩
  next hn =>
    dsimp only
    split
    next hall => exact ⟨0, rfl, by simp [Nat.sub_eq_zero_of_le hall]⟩
    next hmany =>
      have hwithin := within_allTurns rd items
      obtain ⟨start, hstart⟩ : ∃ start, (forkTurnPositionsInRollout rd items)[
        (forkTurnPositionsInRollout rd items).length - n]? = some start := ⟨_, List.getElem?_eq_getElem (by omega)⟩
      have hmem := List.mem_of_getElem? hstart
      have hlen : (items.take start).length = start := List.length_take_of_le (hwithin.fork _ hmem).le
      have hfront := (within_allTurns rd (items.take start)).fork
      have hsplit := @allTurns_append rd (items.take start) (items.drop start) (by rwa [List.take_append_drop, hlen])
      rw [List.take_append_drop, hlen] at hsplit
      rw [hlen] at hfront
      have hfork := congrArg forkTurnPositions hsplit
      have hbefore : (allTurns rd items).forkTurnPositions.filter (· < start) =
          (allTurns rd (items.take start)).forkTurnPositions := by
        rw [hfork, behind, List.filter_append, List.filter_eq_self.mpr fun idx hidx => decide_eq_true (hfront idx hidx),
          List.filter_map, List.filter_eq_nil_iff.mpr (by simp), List.map_nil, List.append_nil]
      refine ⟨start, by rw [List.getD_eq_getElem?_getD, hstart, getD_some], List.append_cancel_left (hfork.symm.trans ?_)⟩
      rw [← hbefore, filter_lt_eq_take hwithin.sorted hstart]
      exact (List.take_append_drop ..).symm

end

/-! ## User messages -/

section

variable {rollout : List RolloutEntry}

/-- The last turns that a rollback takes are user messages, or no user message is in front of them. -/
def DropsUserMessages (rd : ItemReaders) (history : List ResponseItem) (numTurns : UInt32) : Prop :=
  (∀ turn ∈ (history.filter (isUserTurnBoundary rd)).rtake numTurns.toNat,
      isRealUserMessageBoundary rd turn = true) ∨
    ∀ turn ∈ (history.filter (isUserTurnBoundary rd)).rdrop numTurns.toNat,
      isRealUserMessageBoundary rd turn = false

/-- The positions are those of the user messages in the replayed history, and the cut is in front of one of these. -/
structure AgreesWithReplay (rd : ItemReaders) (items : List RolloutItem) : Prop where
  positions : userMessagePositionsInRollout rd items =
    survivingPositions rd items (isRealUserMessageBoundary rd)
  truncated : ∀ n, truncateRolloutBeforeNthUserMessageFromStart rd items n =
    if n = usizeMax then items
    else
      match (survivingPositions rd items (isRealUserMessageBoundary rd))[n]? with
      | some idx => items.take idx
      | none => items

theorem agreesWithReplay_iff {items : List RolloutItem} : AgreesWithReplay rd items ↔
    userMessagePositionsInRollout rd items = survivingPositions rd items (isRealUserMessageBoundary rd) := by
  refine ⟨AgreesWithReplay.positions, fun h => ⟨h, fun n => ?_⟩⟩
  rw [← h]
  rfl

theorem forall_mem_of_map_eq {α β : Type} {f : α → Bool} {g : β → Bool} {l : List α} {l' : List β} (h : l.map f = l'.map g)
    (b : Bool) : (∀ x ∈ l, f x = b) ↔ ∀ y ∈ l', g y = b := by
  have hiff : (∀ c ∈ l.map f, c = b) ↔ ∀ c ∈ l'.map g, c = b := by rw [h]
  rwa [List.forall_mem_map, List.forall_mem_map] at hiff

theorem history_trackedReplay (rollout : List RolloutEntry) :
    (trackedReplay rd (rolloutItems rollout)).history.items = parentHistory rd rollout := by
  have hhistory : (trackedReplay rd (rolloutItems rollout)).history = replayItems rd {} (rolloutItems rollout) := by
    induction rollout using List.reverseRecOn with
    | nil => rfl
    | append_singleton rollout entry ih =>
        rw [rolloutItems_concat, trackedReplay_concat, replayItems, List.foldl_append]
        rw [replayItems] at ih
        rw [← ih]
        cases entry with
        | responseItem item => rfl
        | threadRolledBack n => rfl
  rw [hhistory]
  rfl

theorem userMessagePositions_concat {entry : RolloutEntry}
    (h : userMessagePositionsInRollout rd (rolloutItems rollout) =
      (turnPositions rd rollout).filter (isAt (rolloutItems rollout) (isRealUserMessageBoundary rd))) :
    (userMessagePositionsInRollout rd (rolloutItems (rollout ++ [entry])) =
      (turnPositions rd (rollout ++ [entry])).filter
        (isAt (rolloutItems (rollout ++ [entry])) (isRealUserMessageBoundary rd))) ↔
      ∀ n, entry = .threadRolledBack n → DropsUserMessages rd (parentHistory rd rollout) n := by
  have hlt : ∀ idx ∈ turnPositions rd rollout, idx < (rolloutItems rollout).length :=
    fun idx hidx => lt_of_mem_turnPositions hidx
  have hlen : (rolloutItems rollout).length = rollout.length := List.length_map _
  have hstep : userMessagePositionsInRollout rd (rolloutItems (rollout ++ [entry])) =
      userPositionsStep rd (userMessagePositionsInRollout rd (rolloutItems rollout)) (entry.item, rollout.length) := by
    rw [userMessagePositionsInRollout, rolloutItems_concat, List.zipIdx_append, List.foldl_append, zero_add, hlen]
    rfl
  rw [hstep, h]
  cases entry with
  | responseItem item =>
      refine iff_of_true ?_ fun n hn => by cases hn
      rw [filter_turnPositions_responseItem fun _ => isUserTurnBoundary_of_isRealUserMessageBoundary]
      simp only [RolloutEntry.item, userPositionsStep]
  | threadRolledBack n =>
      rw [turnPositions_threadRolledBack, rolloutItems_concat,
        filter_isAt_concat fun idx hidx => hlt idx (List.mem_of_mem_take hidx)]
      have hmap := map_isAt_turnPositions rollout (isRealUserMessageBoundary_processItem rd)
      rw [history_trackedReplay] at hmap
      have hlengths := congrArg List.length hmap
      rw [List.length_map, List.length_map] at hlengths
      have hlast := congrArg (List.rtake · n.toNat) hmap
      have hfst := congrArg (List.rdrop · n.toNat) hmap
      simp only [List.rtake, List.rdrop, List.length_map, ← List.map_drop, ← List.map_take] at hlast hfst
      change ((turnPositions rd rollout).filter _).rdrop n.toNat = ((turnPositions rd rollout).rdrop n.toNat).filter _ ↔ _
      rw [filter_rdrop_eq_iff, List.rtake, List.rdrop, forall_mem_of_map_eq hlast, forall_mem_of_map_eq hfst]
      constructor
      · intro hdrops n' hn
        cases hn
        exact hdrops
      · exact fun hdrops => hdrops n rfl

def PositionsInStep (rd : ItemReaders) (rollout : List RolloutEntry) : Prop :=
  userMessagePositionsInRollout rd (rolloutItems rollout) =
    (turnPositions rd rollout).filter (isAt (rolloutItems rollout) (isRealUserMessageBoundary rd))

/-- At each point of a rollout the positions of the user messages agree with the replay exactly when each rollback drops
user messages only, or all there are. -/
theorem user_message_positions_agree_iff (rd : ItemReaders) (rollout : List RolloutEntry) :
    (∀ replayed, replayed <+: rollout → AgreesWithReplay rd (replayed.map item)) ↔
      ∀ replayed numTurns, replayed ++ [.threadRolledBack numTurns] <+: rollout →
        DropsUserMessages rd (parentHistory rd replayed) numTurns := by
  have hagr : ∀ replayed : List RolloutEntry,
      AgreesWithReplay rd (replayed.map item) ↔ PositionsInStep rd replayed := by
    intro replayed
    rw [agreesWithReplay_iff, PositionsInStep, ← survivingPositions_eq_filter fun _ =>
      isUserTurnBoundary_of_isRealUserMessageBoundary]
    rfl
  rw [forall_prefix_iff (I := PositionsInStep rd) rfl (fun _ _ h hdrops => (userMessagePositions_concat h).mpr hdrops)
    (fun replayed h => (hagr replayed).mpr h)
    fun replayed entry h haft => (userMessagePositions_concat h).mp ((hagr (replayed ++ [entry])).mp haft)]
  constructor
  · exact fun h replayed numTurns hpre => h replayed _ hpre numTurns rfl
  · rintro h replayed entry hpre numTurns rfl
    exact h replayed numTurns hpre

/-- The rollback takes the message of the agent, and the question of the user has no position any more. -/
theorem question_has_no_position : ¬ ∀ (rd : ItemReaders) (rollout : List RolloutEntry),
    AgreesWithReplay rd (rollout.map item) := by
  intro h
  have hpositions := (h mailReaders mailRolledBack).positions
  exact absurd hpositions (by decide +kernel)

end

end CodexStudy.Core
