import BjutEth.Alien.Runs

namespace BjutEth.Alien

open Std Outcome List ExtTreeMap Option Avoids Vote Ensures

def Vote.share (v : Vote) (candidate : Address) : ℤ := if v.candidate = candidate then v.stake else 0

def support (votes : GoMap Address Vote) (candidate : Address) : ℤ :=
  votes.sumBy (fun _ v ↦ v.share candidate)

namespace Snapshot

structure BookInv (s : Snapshot) : Prop where
  tally_eq : ∀ c, s.tally.getD c 0 = support s.votes c
  voter_eq : ∀ (a : Address) (v : Vote), s.votes[a]? = some v → v.voter = a
  mem_voters : ∀ a, a ∈ s.votes ↔ a ∈ s.voters
  stake_nonneg : ∀ (a : Address) (v : Vote), s.votes[a]? = some v → 0 ≤ v.stake

def book (s : Snapshot) : GoMap Address Vote × GoMap Address ℤ × GoMap Address ℤ :=
  (s.votes, s.tally, s.voters)

def NoDangling (s : Snapshot) : Prop := ∀ (a : Address) (v : Vote), s.votes[a]? = some v → v.candidate ∈ s.tally

def TallyPositive (s : Snapshot) : Prop := ∀ (c : Address) (t : ℤ), s.tally[c]? = some t → 0 < t

end Snapshot

variable {v : Vote} {votes : GoMap Address Vote} {a : Address}

theorem Vote.share_nonneg (h : 0 ≤ v.stake) (c : Address) : 0 ≤ v.share c := by
  unfold share
  split
  · exact h
  · exact le_rfl

theorem support_insert (votes : GoMap Address Vote) (a : Address) (v : Vote) (c : Address) :
    support (votes.insert a v) c = v.share c + support (votes.erase a) c :=
  votes.sumBy_insert a v _

theorem support_erase (h : votes[a]? = some v) (c : Address) :
    support (votes.erase a) c = support votes c - v.share c :=
  votes.sumBy_erase_of_some h _

theorem share_le_support (h : ∀ (a : Address) (v : Vote), votes[a]? = some v → 0 ≤ v.stake)
    (hv : votes[a]? = some v) (c : Address) : v.share c ≤ support votes c :=
  votes.le_sumBy _ (fun b w hw ↦ share_nonneg (h b w hw) c) hv

theorem exists_vote_of_support_ne_zero {c : Address} (h : support votes c ≠ 0) :
    ∃ (a : Address) (v : Vote), votes[a]? = some v ∧ v.candidate = c := by
  by_contra hno
  push Not at hno
  apply h
  have hzero : support votes c = votes.sumBy (fun _ _ ↦ 0) :=
    votes.sumBy_congr (fun a v hv ↦ by rw [share, if_neg (hno a v hv)])
  rw [hzero, GoMap.sumBy]
  simp

namespace Snapshot

variable {rt : Runtime} {crypto : Crypto} {cfg : Config} {header : Header} {extra : HeaderExtra}
  {s t : Snapshot} {n : ℤ}

variable {tally tally' : GoMap Address ℤ}

theorem subTally_eq_ok (h : subTally tally v = .ok tally') :
    v.candidate ∈ tally ∧ ∀ c, tally'.getD c 0 = tally.getD c 0 - v.share c := by
  unfold subTally at h
  split at h
  · cases h
  next t ht =>
  cases h
  refine ⟨mem_iff_isSome_getElem?.mpr (by simp [ht]), fun c ↦ ?_⟩
  simp only [GoMap.getD_insert, share]
  by_cases hc : v.candidate = c
  · subst hc
    simp [getD_eq_getD_getElem?, ht]
  · simp [hc]

theorem mem_of_subTally (h : subTally tally v = .ok tally') (c : Address) : c ∈ tally' ↔ c ∈ tally := by
  have hmem := (subTally_eq_ok h).1
  unfold subTally at h
  split at h
  · cases h
  cases h
  rw [GoMap.mem_insert]
  constructor
  · rintro (rfl | hc)
    · exact hmem
    · exact hc
  · exact .inr

theorem BookInv.retractVote (hs : s.BookInv) {voter : Address} (h : s.retractVote voter = .ok tally)
    (c : Address) : tally.getD c 0 = support (s.votes.erase voter) c := by
  unfold Snapshot.retractVote at h
  split at h
  · next hv =>
    cases h
    rw [GoMap.erase_of_getElem?_eq_none _ hv, hs.tally_eq]
  · next v hv => rw [(subTally_eq_ok h).2, hs.tally_eq, support_erase hv]

theorem addVote_eq_ok (h : addVote n s v = .ok t) :
    ∃ tally, s.retractVote v.voter = .ok tally ∧
      t.tally = tally.insert v.candidate (tally.getD v.candidate 0 + v.stake) ∧
      t.votes = s.votes.insert v.voter v ∧ t.voters = s.voters.insert v.voter n := by
  obtain ⟨tally, htal, ht⟩ := bind_eq_ok.mp h
  refine ⟨tally, htal, ?_⟩
  cases ht
  cases hc : tally[v.candidate]? <;> simp [getD_eq_getD_getElem?, hc]

theorem getD_insert_add (tally : GoMap Address ℤ) (v : Vote) (c : Address) :
    (tally.insert v.candidate (tally.getD v.candidate 0 + v.stake)).getD c 0 =
      v.share c + tally.getD c 0 := by
  simp only [GoMap.getD_insert, share]
  by_cases hc : v.candidate = c
  · subst hc
    simp [add_comm]
  · simp [hc]

theorem BookInv.insert_vote (hs : s.BookInv) (hv : 0 ≤ v.stake)
    (htal : ∀ c, tally.getD c 0 = support (s.votes.erase v.voter) c)
    (ht : t.tally = tally.insert v.candidate (tally.getD v.candidate 0 + v.stake))
    (hvs : t.votes = s.votes.insert v.voter v) (hvrs : ∀ a, a ∈ t.voters ↔ v.voter = a ∨ a ∈ s.voters) :
    t.BookInv where
  tally_eq c := by rw [ht, hvs, support_insert, getD_insert_add, htal]
  voter_eq a w hw := by
    simp only [hvs, GoMap.get_insert] at hw
    split at hw
    · next ha => cases hw; exact ha
    · exact hs.voter_eq a w hw
  mem_voters a := by rw [hvs, hvrs, GoMap.mem_insert, hs.mem_voters]
  stake_nonneg a w hw := by
    simp only [hvs, GoMap.get_insert] at hw
    split at hw
    · cases hw; exact hv
    · exact hs.stake_nonneg a w hw

theorem BookInv.addVote (hs : s.BookInv) (hv : 0 ≤ v.stake) (h : addVote n s v = .ok t) : t.BookInv := by
  obtain ⟨tally, htal, ht, hvs, hvrs⟩ := addVote_eq_ok h
  refine hs.insert_vote hv (hs.retractVote htal) ht hvs (fun a ↦ ?_)
  rw [hvrs, GoMap.mem_insert]

theorem modifyVote_eq_ok (h : modifyVote s v = .ok t) :
    t = s ∨ ∃ last tally, s.votes[v.voter]? = some last ∧ s.retractVote v.voter = .ok tally ∧
      t = { s with
        tally := tally.insert last.candidate (tally.getD last.candidate 0 + v.stake)
        votes := s.votes.insert v.voter ⟨v.voter, last.candidate, v.stake⟩ } := by
  unfold modifyVote at h
  split at h
  · cases h; exact .inl rfl
  next last hlast =>
  obtain ⟨tally, htal, ht⟩ := bind_eq_ok.mp h
  cases ht
  exact .inr ⟨last, tally, hlast, by rw [Snapshot.retractVote, hlast]; exact htal, rfl⟩

section

variable (hs : s.BookInv)

include hs

theorem BookInv.modifyVote (hv : 0 ≤ v.stake) (h : modifyVote s v = .ok t) : t.BookInv := by
  obtain rfl | ⟨last, tally, hlast, htal, rfl⟩ := modifyVote_eq_ok h
  · exact hs
  refine hs.insert_vote (v := ⟨v.voter, last.candidate, v.stake⟩) hv (hs.retractVote htal)
    rfl rfl (fun a ↦ ⟨.inr, ?_⟩)
  rintro (rfl | ha)
  · exact (hs.mem_voters _).mp (mem_iff_isSome_getElem?.mpr (by simp [hlast]))
  · exact ha

theorem BookInv.dropVote (hv : s.votes[v.voter]? = some v) : (s.dropVote v).BookInv where
  tally_eq c := by
    have hle := share_le_support hs.stake_nonneg hv v.candidate
    have hnon := hs.stake_nonneg _ v hv
    have hc := hs.tally_eq c
    show (s.dropVote v).tally.getD c 0 = support (s.votes.erase v.voter) c
    rw [support_erase hv, ← hc]
    have hcand := hs.tally_eq v.candidate
    simp only [share, if_true] at hle ⊢
    cases ht : s.tally[v.candidate]? with
    | none =>
      have h0 : s.tally.getD v.candidate 0 = 0 := by simp [getD_eq_getD_getElem?, ht]
      have hstk : v.stake = 0 := by omega
      rw [Snapshot.dropVote, ht]
      simp [hstk]
    | some t =>
      rw [Snapshot.dropVote, ht]
      dsimp only
      by_cases h0 : t - v.stake = 0
      · rw [if_pos h0]
        simp only [getD_erase]
        by_cases hvc : v.candidate = c
        · subst hvc
          simp [getD_eq_getD_getElem?, ht, h0]
        · simp [hvc]
      rw [if_neg h0]
      simp only [GoMap.getD_insert]
      by_cases hvc : v.candidate = c
      · subst hvc
        simp [getD_eq_getD_getElem?, ht]
      · simp [hvc]
  voter_eq a w hw := by
    simp only [Snapshot.dropVote, GoMap.get_erase] at hw
    split at hw
    · cases hw
    · exact hs.voter_eq a w hw
  mem_voters a := by
    simp only [Snapshot.dropVote, mem_erase, hs.mem_voters]
  stake_nonneg a w hw := by
    simp only [Snapshot.dropVote, GoMap.get_erase] at hw
    split at hw
    · cases hw
    · exact hs.stake_nonneg a w hw

theorem BookInv.foldl_dropVote {l : List Vote} (hl : (l.map (·.voter)).Nodup)
    (hmem : ∀ v ∈ l, s.votes[v.voter]? = some v) : (l.foldl Snapshot.dropVote s).BookInv := by
  induction l generalizing s with
  | nil => exact hs
  | cons v l ih =>
    rw [map_cons, nodup_cons] at hl
    refine ih (hs.dropVote (hmem v mem_cons_self)) hl.2 (fun w hw ↦ ?_)
    have hne : v.voter ≠ w.voter := fun h ↦ hl.1 (h ▸ List.mem_map_of_mem hw)
    simp only [Snapshot.dropVote, GoMap.get_erase, hne]
    exact hmem w (mem_cons_of_mem v hw)

theorem BookInv.mem_expiredVotes (h : v ∈ expiredVotes rt cfg s n) :
    s.votes[v.voter]? = some v := by
  obtain ⟨e, -, he⟩ := List.mem_filterMap.mp h
  obtain ⟨hv, -⟩ := filter_eq_some_iff.mp he
  rw [hs.voter_eq _ _ hv, hv]

theorem BookInv.nodup_expiredVotes : ((expiredVotes rt cfg s n).map (·.voter)).Nodup := by
  have hsub : ((expiredVotes rt cfg s n).map (·.voter)).Sublist
      ((rt.rangeOrder s.voters.toList).map (·.1)) := by
    unfold expiredVotes
    rw [map_filterMap]
    generalize rt.rangeOrder s.voters.toList = l
    induction l with
    | nil => exact List.Sublist.refl _
    | cons e l ih =>
      rw [filterMap_cons]
      split
      · exact ih.cons _
      next b hb =>
      obtain ⟨v, hv, rfl⟩ := map_eq_some_iff.mp hb
      rw [hs.voter_eq _ _ (filter_eq_some_iff.mp hv).1]
      exact ih.cons_cons _
  have hnd : (s.voters.toList.map (·.1)).Nodup := by
    rw [map_fst_toList_eq_keys]
    exact nodup_keys
  exact (((rt.rangeOrder_perm _).map _).nodup_iff.mpr hnd).sublist hsub

theorem BookInv.dropExpired (rt : Runtime) (cfg : Config) (n : ℤ) :
    (s.dropExpired rt cfg n).BookInv := by
  unfold Snapshot.dropExpired
  simp only
  split
  · exact hs.foldl_dropVote hs.nodup_expiredVotes (fun v ↦ hs.mem_expiredVotes)
  · exact hs

theorem BookInv.sweepTally : s.sweepTally.BookInv where
  tally_eq c := by
    have hnon : 0 ≤ support s.votes c :=
      s.votes.sumBy_nonneg _ (fun a v hv ↦ share_nonneg (hs.stake_nonneg a v hv) c)
    have hc := hs.tally_eq c
    simp only [Snapshot.sweepTally, getD_eq_getD_getElem?, getElem?_filter'] at hc ⊢
    cases ht : s.tally[c]? with
    | none => simpa [ht] using hc
    | some t =>
      simp only [ht, getD_some] at hc
      by_cases hpos : 0 < t
      · simpa [Option.filter, hpos] using hc
      simp only [Option.filter, hpos, decide_false, Bool.false_eq_true, if_false, getD_none]
      omega
  voter_eq := hs.voter_eq
  mem_voters := hs.mem_voters
  stake_nonneg := hs.stake_nonneg

end

theorem sweepTally_positive (s : Snapshot) : s.sweepTally.TallyPositive := by
  intro c t ht
  simp only [sweepTally, getElem?_filter', filter_eq_some_iff] at ht
  simpa using ht.2

theorem BookInv.updateSnapshotForExpired (hs : s.BookInv) (rt : Runtime) (cfg : Config) (n : ℤ) :
    (s.updateSnapshotForExpired rt cfg n).BookInv := by
  have hd := hs.dropExpired rt cfg n
  exact BookInv.sweepTally ⟨hd.tally_eq, hd.voter_eq, hd.mem_voters, hd.stake_nonneg⟩

theorem getD_foldl_addTarget (l : List (Address × Vote)) (target : GoMap Address ℤ) (c : Address) :
    (l.foldl addTarget target).getD c 0 = target.getD c 0 + (l.map (fun e ↦ e.2.share c)).sum := by
  induction l generalizing target with
  | nil => simp
  | cons e l ih =>
    rw [foldl_cons, ih, addTarget, getD_insert_add, map_cons, sum_cons]
    omega

theorem mem_foldl_addTarget {l : List (Address × Vote)} {target : GoMap Address ℤ} {c : Address}
    (h : c ∈ target ∨ ∃ e ∈ l, e.2.candidate = c) : c ∈ l.foldl addTarget target := by
  induction l generalizing target with
  | nil =>
    obtain h | ⟨e, he, -⟩ := h
    · exact h
    · cases he
  | cons e l ih =>
    apply ih
    rw [addTarget, GoMap.mem_insert]
    obtain h | ⟨e', he', hc⟩ := h
    · exact .inl (.inr h)
    obtain rfl | he' := mem_cons.mp he'
    · exact .inl (.inl hc)
    · exact .inr ⟨e', he', hc⟩

theorem tallyTarget_eq_some (hv : s.votes[a]? = some v) :
    s.tallyTarget[v.candidate]? = some (support s.votes v.candidate) := by
  have hmem : v.candidate ∈ s.tallyTarget :=
    mem_foldl_addTarget (.inr ⟨(a, v), mem_toList_iff_getElem?_eq_some.mpr hv, rfl⟩)
  have hval : s.tallyTarget.getD v.candidate 0 = support s.votes v.candidate := by
    refine (getD_foldl_addTarget _ _ _).trans ?_
    rw [getD_eq_getD_getElem?, getElem?_empty, getD_none, zero_add]
    rfl
  obtain ⟨x, hx⟩ := isSome_iff_exists.mp (mem_iff_isSome_getElem?.mp hmem)
  rw [getD_eq_getD_getElem?, hx, getD_some] at hval
  rw [hx, hval]

theorem BookInv.verifyTallyCnt (hs : s.BookInv) (hpos : s.TallyPositive) :
    s.verifyTallyCnt = .ok () := by
  unfold Snapshot.verifyTallyCnt
  rw [if_pos]
  rw [List.all_eq_true]
  rintro ⟨c, t⟩ he
  have ht : s.tally[c]? = some t := mem_toList_iff_getElem?_eq_some.mp he
  have hsupport : support s.votes c = t := by
    rw [← hs.tally_eq, getD_eq_getD_getElem?, ht, getD_some]
  have hne : support s.votes c ≠ 0 := by
    have := hpos c t ht
    omega
  obtain ⟨a, v, hv, rfl⟩ := exists_vote_of_support_ne_zero hne
  simp only [tallyTarget_eq_some hv, hsupport, beq_self_eq_true]

theorem BookInv.addGenesisVote (hs : s.BookInv) (hv : 0 ≤ v.stake) (hfrs : v.voter ∉ s.votes) :
    (s.addGenesisVote v).BookInv := by
  have hnone : s.votes[v.voter]? = none := by
    simpa using hfrs
  have htal : ∀ c, s.tally.getD c 0 = support (s.votes.erase v.voter) c := by
    rw [GoMap.erase_of_getElem?_eq_none _ hnone]
    exact hs.tally_eq
  refine hs.insert_vote hv htal rfl rfl (fun a ↦ ?_)
  rw [Snapshot.addGenesisVote, GoMap.mem_insert]

theorem BookInv.foldl_addGenesisVote (hs : s.BookInv) {l : List Vote}
    (hl : (l.map (·.voter)).Nodup) (hstk : ∀ v ∈ l, 0 ≤ v.stake)
    (hfrs : ∀ v ∈ l, v.voter ∉ s.votes) : (l.foldl Snapshot.addGenesisVote s).BookInv := by
  induction l generalizing s with
  | nil => exact hs
  | cons v l ih =>
    rw [map_cons, nodup_cons] at hl
    refine ih (hs.addGenesisVote (hstk v mem_cons_self) (hfrs v mem_cons_self)) hl.2
      (fun w hw ↦ hstk w (mem_cons_of_mem v hw)) (fun w hw hmem ↦ ?_)
    rw [Snapshot.addGenesisVote, GoMap.mem_insert] at hmem
    obtain heq | hmem := hmem
    · exact hl.1 (heq ▸ List.mem_map_of_mem hw)
    · exact hfrs w (mem_cons_of_mem v hw) hmem

theorem newSnapshot_bookInv (cfg : Config) (now : UInt64) (hash : Hash) {votes : List Vote}
    (lcrs : UInt64) (hdis : (votes.map (·.voter)).Nodup) (hstk : ∀ v ∈ votes, 0 ≤ v.stake) :
    (newSnapshot cfg now hash votes lcrs).BookInv := by
  refine BookInv.foldl_addGenesisVote ⟨?_, ?_, ?_, ?_⟩ hdis hstk (fun v _ ↦ by simp)
  · intro c
    simp [support]
  · intro a v hv
    simp at hv
  · intro a
    simp
  · intro a v hv
    simp at hv

theorem BookInv.congr (hs : s.BookInv) (h : t.book = s.book) : t.BookInv := by
  simp only [book, Prod.mk.injEq] at h
  obtain ⟨hvs, htal, hvrs⟩ := h
  exact ⟨by rw [hvs, htal]; exact hs.tally_eq, by rw [hvs]; exact hs.voter_eq,
    by rw [hvs, hvrs]; exact hs.mem_voters, by rw [hvs]; exact hs.stake_nonneg⟩

/-- What a header does to votes, tally and voters: its votes are added, stakes are
changed, and at the end votes expire. -/
theorem subUpdates_book {P : Snapshot → Prop} (hcgr : ∀ s t, t.book = s.book → P s → P t)
    (hadd : ∀ v ∈ extra.currentBlockVotes, ∀ s, P s → Ensures (addVote header.number s v) P)
    (hmodify : ∀ v ∈ extra.modifyPredecessorVotes, ∀ s, P s → Ensures (modifyVote s v) P)
    (hexpire : ∀ s, P s → P (s.updateSnapshotForExpired rt cfg header.number)) :
    ∀ update ∈ subUpdates rt crypto cfg header extra, ∀ s, P s → Ensures (update s) P := by
  simp only [subUpdates, forall_mem_cons]
  refine ⟨fun s hs t ht ↦ ?_, fun s hs t ht ↦ ?_, fun s hs ↦ ?_, fun s hs ↦ ?_, fun s hs t ht ↦ ?_,
    fun s hs t ht ↦ ?_, fun s hs t ht ↦ ?_, fun s hs t ht ↦ ?_, fun s hs t ht ↦ ?_,
    fun s hs t ht ↦ ?_, fun s hs t ht ↦ ?_, fun s hs t ht ↦ ?_, fun s hs t ht ↦ ?_,
    fun s hs t ht ↦ ?_, fun s hs t ht ↦ ?_, by simp⟩
  · exact hcgr s t (kept book (openHeader_frame ht) (fun _ ↦ rfl)) hs
  · cases ht
    exact hcgr s _ rfl hs
  · exact foldlM _ hs (fun s hs v hv ↦ hadd v hv s hs)
  · exact foldlM _ hs (fun s hs v hv ↦ hmodify v hv s hs)
  · cases ht
    exact hcgr s _ rfl hs
  · cases ht
    exact hcgr s _ (kept book (updateSnapshotByProposals_frame s _ _) (fun _ ↦ rfl)) hs
  · cases ht
    exact hcgr s _ (kept book (updateSnapshotByDeclares_frame cfg s _ _) (fun _ ↦ rfl)) hs
  · cases ht
    exact hcgr s _ rfl hs
  · cases ht
    exact hcgr s _ rfl hs
  · exact hcgr s t (kept book (updateSnapshotBySCConfirm_frame ht) (fun _ ↦ rfl)) hs
  · cases ht
    exact hcgr s _ (kept book (updateSnapshotByNoticeConfirm_frame cfg s _ _) (fun _ ↦ rfl)) hs
  · exact hcgr s t (kept book (calculateProposalResult_frame ht) (fun _ ↦ rfl)) hs
  · exact hcgr s t (kept book (checkCandidates_frame ht) (fun _ ↦ rfl)) hs
  · exact hcgr s t (kept book (updateSnapshotBySCCharging_frame ht) (fun _ ↦ rfl)) hs
  · cases ht
    exact hexpire s hs

theorem subUpdates_bookInv (he : decodeExtra header = .ok extra) :
    ∀ update ∈ subUpdates rt crypto cfg header extra, ∀ s, s.BookInv → Ensures (update s) BookInv := by
  have hstk := stake_nonneg_of_decodeExtra he
  exact subUpdates_book (fun s t h hs ↦ hs.congr h)
    (fun v hv s hs t ht ↦ hs.addVote (hstk v (mem_append_left _ hv)) ht)
    (fun v hv s hs t ht ↦ hs.modifyVote (hstk v (mem_append_right _ hv)) ht)
    (fun s hs ↦ hs.updateSnapshotForExpired rt cfg header.number)

theorem BookInv.applyHeader (hs : s.BookInv) :
    Ensures (s.applyHeader rt crypto cfg header) BookInv :=
  applyHeader_ensures (fun _ he ↦ subUpdates_bookInv he) hs

theorem applyHeader_positive (h : s.applyHeader rt crypto cfg header = .ok t) :
    t.TallyPositive := by
  obtain ⟨-, extra, -, -, -, h⟩ := applyHeader_eq_ok h
  have hspl : subUpdates rt crypto cfg header extra =
      (subUpdates rt crypto cfg header extra).take 14 ++
        [fun s ↦ .ok (s.updateSnapshotForExpired rt cfg header.number)] := rfl
  rw [hspl, foldlM_append] at h
  obtain ⟨u, -, h⟩ := bind_eq_ok.mp h
  cases h
  exact sweepTally_positive _

theorem applyHeader_avoids (rt : Runtime) (crypto : Crypto) (cfg : Config) (s : Snapshot)
    (header : Header) :
    Avoids (s.applyHeader rt crypto cfg header) .incorrectTallyCount := by
  refine bind ?_ (fun coinbase _ ↦ ?_)
  · unfold Crypto.ecrecover
    split
    · exact fun h ↦ (by cases h)
    refine bind ?_ (fun hash _ ↦ ?_)
    · unfold Crypto.sigHash
      split_ifs <;> exact fun h ↦ (by cases h)
    · split <;> exact fun h ↦ (by cases h)
  split
  · exact fun h ↦ (by cases h)
  refine bind ?_ (fun extra _ ↦ subUpdates_noErr rt crypto cfg header extra s _)
  unfold decodeExtra decodeHeaderExtra
  split
  · exact fun h ↦ (by cases h)
  · split <;> exact fun h ↦ (by cases h)

section Run

variable {rt : UInt64 → Runtime} {headers : List Header}

theorem BookInv.applyHeaders (hs : s.BookInv) :
    Ensures (s.applyHeaders rt crypto cfg headers) BookInv :=
  foldlM headers hs (fun _ hs _ _ ↦ hs.applyHeader)

theorem applyHeaders_positive (hne : headers ≠ [])
    (h : s.applyHeaders rt crypto cfg headers = .ok t) : t.TallyPositive := by
  obtain ⟨init, last, rfl⟩ := headers.eq_nil_or_concat.resolve_left hne
  rw [Snapshot.applyHeaders, concat_eq_append, foldlM_append] at h
  obtain ⟨u, -, h⟩ := bind_eq_ok.mp h
  obtain ⟨w, hw, h⟩ := bind_eq_ok.mp h
  cases h
  exact applyHeader_positive hw

theorem BookInv.apply (hs : s.BookInv) : Ensures (s.apply rt crypto cfg headers) BookInv :=
  apply_ensures (fun hs ↦ hs.congr rfl) (fun _ _ _ hs ↦ hs.applyHeader)
    (fun _ _ _ hs ↦ hs.congr rfl) hs

theorem apply_positive (hs : headers = [] → s.TallyPositive)
    (h : s.apply rt crypto cfg headers = .ok t) : t.TallyPositive := by
  obtain ⟨hnil, rfl⟩ | ⟨last, snap, hlast, -, hsnap, rfl, -⟩ := apply_eq_ok h
  · exact hs hnil
  have hne : headers ≠ [] := by
    rintro rfl
    cases hlast
  have hpos := applyHeaders_positive hne hsnap
  exact hpos

theorem BookInv.apply_avoids (hs : s.BookInv) :
    Avoids (s.apply rt crypto cfg headers) .incorrectTallyCount := by
  unfold Snapshot.apply
  split
  · exact fun h ↦ (by cases h)
  next last hlast =>
  have hcopy : s.copy.BookInv := hs.congr rfl
  have hne : headers ≠ [] := by
    rintro rfl
    cases hlast
  split
  · exact fun h ↦ (by cases h)
  refine bind (foldlM (fun s header _ ↦ applyHeader_avoids _ _ _ s header) _)
    (fun snap hsnap ↦ bind ?_ (fun _ _ h ↦ (by cases h)))
  have hinv : snap.BookInv := hcopy.applyHeaders snap hsnap
  have hpos : snap.TallyPositive := applyHeaders_positive hne hsnap
  have hdone : (snap.advance headers.length (crypto.rlpHash last)).BookInv := hinv.congr rfl
  rw [hdone.verifyTallyCnt hpos]
  exact fun h ↦ (by cases h)

variable {batches : List (List Header)}

theorem BookInv.applyAll (hs : s.BookInv) : Ensures (s.applyAll rt crypto cfg batches) BookInv :=
  foldlM batches hs (fun _ hs _ _ ↦ hs.apply)

theorem applyAll_positive (hs : batches.flatten = [] → s.TallyPositive)
    (h : s.applyAll rt crypto cfg batches = .ok t) : t.TallyPositive := by
  induction batches generalizing s with
  | nil =>
    cases h
    exact hs rfl
  | cons headers batches ih =>
    obtain ⟨u, hu, h⟩ := bind_eq_ok.mp h
    refine ih (fun hnil ↦ apply_positive (fun hh ↦ hs ?_) hu) h
    rw [flatten_cons, hh, hnil]
    rfl

theorem BookInv.applyAll_avoids (hs : s.BookInv) :
    Avoids (s.applyAll rt crypto cfg batches) .incorrectTallyCount := by
  induction batches generalizing s with
  | nil => exact fun h ↦ (by cases h)
  | cons headers batches ih =>
    exact hs.apply_avoids.bind (fun t ht ↦ ih (hs.apply t ht))

end Run

/-- In every run from genesis the tally is the sum of the votes, so that the final
count of `apply` never fails. -/
theorem tally_is_sum_of_votes (rt : UInt64 → Runtime) (crypto : Crypto) (cfg : Config)
    (now : UInt64) (hash : Hash) (lcrs : UInt64) (votes : List Vote)
    (batches : List (List Header)) (hdis : (votes.map (·.voter)).Nodup)
    (hstk : ∀ v ∈ votes, 0 ≤ v.stake) :
    (∀ s, (newSnapshot cfg now hash votes lcrs).applyAll rt crypto cfg batches = .ok s →
      (∀ c, s.tally.getD c 0 = support s.votes c) ∧
      (batches.flatten ≠ [] → ∀ (c : Address) (t : ℤ), s.tally[c]? = some t → 0 < t) ∧
      (∀ a, a ∈ s.votes ↔ a ∈ s.voters) ∧
      (∀ (a : Address) (v : Vote), s.votes[a]? = some v → v.voter = a)) ∧
    (newSnapshot cfg now hash votes lcrs).applyAll rt crypto cfg batches ≠
      .error (.err .incorrectTallyCount) := by
  have hnew := newSnapshot_bookInv cfg now hash lcrs hdis hstk
  refine ⟨fun s hs ↦ ?_, hnew.applyAll_avoids⟩
  have hinv : s.BookInv := hnew.applyAll s hs
  exact ⟨hinv.tally_eq, fun hne ↦ applyAll_positive (fun h ↦ absurd h hne) hs, hinv.mem_voters,
    hinv.voter_eq⟩

/-- Two genesis votes, and a header in which the first voter moves to the other candidate. -/
theorem tally_is_sum_of_votes_moved_vote :
    ∃ s, (newSnapshot .small 0 0 [⟨1, 1, 5⟩, ⟨2, 2, 7⟩] 10).applyAll (fun _ ↦ .inOrder) .byNumber
        .small [[.ofExtra 1 { HeaderExtra.zero with currentBlockVotes := [⟨1, 2, 6⟩] }]] = .ok s ∧
      s.tally.getD 2 0 = 13 ∧ s.tally.getD 2 0 = support s.votes 2 := by
  refine Outcome.exists_ok_imp (P := fun s ↦ s.tally.getD 2 0 = 13) (by decide +kernel) (fun s hs h ↦ ?_)
  exact ⟨h, ((tally_is_sum_of_votes _ _ _ 0 0 10 [⟨1, 1, 5⟩, ⟨2, 2, 7⟩] _ (by decide)
    (by decide)).1 s hs).1 2⟩

end Snapshot

end BjutEth.Alien
