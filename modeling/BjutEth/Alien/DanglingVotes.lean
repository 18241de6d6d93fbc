import BjutEth.Alien.VoteBook

namespace BjutEth.Alien.Snapshot

open Std Outcome List ExtTreeMap HeaderExtra

structure StakedBook (s : Snapshot) : Prop extends BookInv s where
  stake_pos : ∀ (a : Address) (v : Vote), s.votes[a]? = some v → 0 < v.stake

def CarriesStake (header : Header) : Prop :=
  ∀ extra, decodeExtra header = .ok extra →
    ∀ v ∈ extra.currentBlockVotes ++ extra.modifyPredecessorVotes, v.stake ≠ 0

variable {rt : Runtime} {crypto : Crypto} {cfg : Config} {header : Header} {extra : HeaderExtra}
  {s t : Snapshot} {n : ℤ}

theorem carriesStake_ofExtra {number : ℤ} {val : HeaderExtra}
    (henc : headerExtraCodec.encodable val = true)
    (hlen : (headerExtraCodec.encode val).length < 2 ^ 64)
    (h : ∀ v ∈ val.currentBlockVotes ++ val.modifyPredecessorVotes, v.stake ≠ 0) :
    CarriesStake (.ofExtra number val) := by
  intro extra he
  rw [decodeExtra_ofExtra henc hlen] at he
  cases he
  exact h

theorem NoDangling.retractVote (hs : s.NoDangling) (voter : Address) :
    ∃ tally, s.retractVote voter = .ok tally ∧ ∀ c, c ∈ tally ↔ c ∈ s.tally := by
  unfold Snapshot.retractVote
  split
  · exact ⟨_, rfl, fun _ ↦ Iff.rfl⟩
  next last hlast =>
  obtain ⟨t, ht⟩ := Option.isSome_iff_exists.mp
    (mem_iff_isSome_getElem?.mp (hs voter last hlast))
  have hsub : subTally s.tally last = .ok (s.tally.insert last.candidate (t - last.stake)) := by
    unfold subTally
    rw [ht]
  exact ⟨_, hsub, mem_of_subTally hsub⟩

variable {v : Vote}

section

variable (hs : s.NoDangling)

include hs

theorem NoDangling.insert_vote {tally : GoMap Address ℤ} {stake : ℤ}
    (htal : ∀ c, c ∈ tally ↔ c ∈ s.tally) (ht : t.tally = tally.insert v.candidate stake)
    (hvs : t.votes = s.votes.insert v.voter v) : t.NoDangling := by
  intro a w hw
  rw [hvs, ExtTreeMap.getElem?_insert] at hw
  rw [ht, GoMap.mem_insert, htal]
  split at hw
  · cases hw
    exact .inl rfl
  · exact .inr (hs a w hw)

theorem NoDangling.addVote (n : ℤ) (v : Vote) : ∃ t, addVote n s v = .ok t ∧ t.NoDangling := by
  obtain ⟨tally, htal, hmem⟩ := hs.retractVote v.voter
  have hok : ∃ t, Snapshot.addVote n s v = .ok t := by
    unfold Snapshot.addVote
    rw [htal]
    exact ⟨_, rfl⟩
  obtain ⟨t, ht⟩ := hok
  obtain ⟨tally', htal', htt, hvs, -⟩ := addVote_eq_ok ht
  rw [htal] at htal'
  cases htal'
  exact ⟨t, ht, hs.insert_vote hmem htt hvs⟩

theorem NoDangling.modifyVote (v : Vote) : ∃ t, modifyVote s v = .ok t ∧ t.NoDangling := by
  obtain ⟨tally, htal, hmem⟩ := hs.retractVote v.voter
  unfold Snapshot.modifyVote
  unfold Snapshot.retractVote at htal
  cases hlast : s.votes[v.voter]? with
  | none => exact ⟨s, rfl, hs⟩
  | some last =>
    simp only [hlast] at htal ⊢
    rw [htal]
    exact ⟨_, rfl, hs.insert_vote (v := ⟨v.voter, last.candidate, v.stake⟩) hmem rfl rfl⟩

theorem NoDangling.updateSnapshotByVotes (votes : List Vote) (n : ℤ) :
    ∃ t, s.updateSnapshotByVotes votes n = .ok t := by
  induction votes generalizing s with
  | nil => exact ⟨s, rfl⟩
  | cons v votes ih =>
    obtain ⟨u, hu, hdan⟩ := hs.addVote n v
    obtain ⟨t, ht⟩ := ih hdan
    refine ⟨t, ?_⟩
    rw [Snapshot.updateSnapshotByVotes, foldlM_cons, hu]
    exact ht

theorem NoDangling.updateSnapshotByMPVotes (votes : List Vote) :
    ∃ t, s.updateSnapshotByMPVotes votes = .ok t := by
  induction votes generalizing s with
  | nil => exact ⟨s, rfl⟩
  | cons v votes ih =>
    obtain ⟨u, hu, hdan⟩ := hs.modifyVote v
    obtain ⟨t, ht⟩ := ih hdan
    refine ⟨t, ?_⟩
    rw [Snapshot.updateSnapshotByMPVotes, foldlM_cons, hu]
    exact ht

end

section

variable (hs : s.StakedBook)

include hs

theorem StakedBook.noDangling : s.NoDangling := by
  intro a v hv
  have hle := share_le_support hs.stake_nonneg hv v.candidate
  have hpos := hs.stake_pos a v hv
  have htal := hs.tally_eq v.candidate
  by_contra hmem
  have hnone : s.tally[v.candidate]? = none := by
    simpa using hmem
  rw [getD_eq_getD_getElem?, hnone, Option.getD_none] at htal
  rw [Vote.share, if_pos rfl] at hle
  omega

theorem StakedBook.congr (h : t.book = s.book) : t.StakedBook := by
  refine ⟨hs.toBookInv.congr h, ?_⟩
  have hvs : t.votes = s.votes := congrArg Prod.fst h
  rw [hvs]
  exact hs.stake_pos

theorem stake_pos_insert (hv : 0 < v.stake)
    (hvs : t.votes = s.votes.insert v.voter v) (a : Address) (w : Vote)
    (hw : t.votes[a]? = some w) : 0 < w.stake := by
  rw [hvs, ExtTreeMap.getElem?_insert] at hw
  split at hw
  · cases hw
    exact hv
  · exact hs.stake_pos a w hw

theorem StakedBook.addVote (hv : 0 < v.stake) (h : addVote n s v = .ok t) : t.StakedBook := by
  obtain ⟨-, -, -, hvs, -⟩ := addVote_eq_ok h
  exact ⟨hs.toBookInv.addVote hv.le h, stake_pos_insert hs hv hvs⟩

theorem StakedBook.modifyVote (hv : 0 < v.stake) (h : modifyVote s v = .ok t) : t.StakedBook := by
  refine ⟨hs.toBookInv.modifyVote hv.le h, ?_⟩
  obtain rfl | ⟨last, tally, -, -, rfl⟩ := modifyVote_eq_ok h
  · exact hs.stake_pos
  · exact stake_pos_insert hs (v := ⟨v.voter, last.candidate, v.stake⟩) hv rfl

end

theorem votes_of_foldl_dropVote {l : List Vote} {a : Address}
    (h : (l.foldl dropVote s).votes[a]? = some v) : s.votes[a]? = some v := by
  induction l generalizing s with
  | nil => exact h
  | cons w l ih =>
    have hw := ih h
    simp only [dropVote, getElem?_erase] at hw
    split at hw
    · cases hw
    · exact hw

theorem votes_of_updateSnapshotForExpired {a : Address}
    (h : (s.updateSnapshotForExpired rt cfg n).votes[a]? = some v) : s.votes[a]? = some v := by
  change (s.dropExpired rt cfg n).votes[a]? = some v at h
  unfold dropExpired at h
  simp only at h
  split at h
  · exact votes_of_foldl_dropVote h
  · exact h

theorem subUpdates_stakedBook (hhd : CarriesStake header) (he : decodeExtra header = .ok extra) :
    ∀ update ∈ subUpdates rt crypto cfg header extra, ∀ s, s.StakedBook →
      Ensures (update s) StakedBook := by
  have hpos : ∀ v ∈ extra.currentBlockVotes ++ extra.modifyPredecessorVotes, 0 < v.stake :=
    fun v hv ↦ (stake_nonneg_of_decodeExtra he v hv).lt_of_ne (hhd extra he v hv).symm
  exact subUpdates_book (fun s t h hs ↦ hs.congr h)
    (fun v hv s hs t ht ↦ hs.addVote (hpos v (mem_append_left _ hv)) ht)
    (fun v hv s hs t ht ↦ hs.modifyVote (hpos v (mem_append_right _ hv)) ht)
    (fun s hs ↦ ⟨hs.toBookInv.updateSnapshotForExpired rt cfg _,
      fun a v hv ↦ hs.stake_pos a v (votes_of_updateSnapshotForExpired hv)⟩)

theorem StakedBook.applyHeader (hs : s.StakedBook) (hhd : CarriesStake header) :
    Ensures (s.applyHeader rt crypto cfg header) StakedBook :=
  applyHeader_ensures (fun _ he ↦ subUpdates_stakedBook hhd he) hs

section Run

variable {rt : UInt64 → Runtime} {headers : List Header}

theorem StakedBook.apply (hs : s.StakedBook) (hheaders : ∀ header ∈ headers, CarriesStake header) :
    Ensures (s.apply rt crypto cfg headers) StakedBook :=
  apply_ensures (fun hs ↦ hs.congr rfl) (fun header hh _ hs ↦ hs.applyHeader (hheaders header hh))
    (fun _ _ _ hs ↦ hs.congr rfl) hs

theorem StakedBook.pointOf (hs : s.StakedBook) (hheaders : ∀ header ∈ headers, CarriesStake header)
    (h : PointOf rt crypto cfg s headers t) : t.StakedBook := by
  obtain ⟨done, header, todo, snap, extra, k, rfl, hsnap, he, ht⟩ := h
  have hcopy : s.copy.StakedBook := hs.congr rfl
  have hinv : snap.StakedBook := Ensures.foldlM done hcopy
    (fun _ hs header hh ↦ hs.applyHeader (hheaders header (mem_append_left _ hh))) snap hsnap
  have hstage : ∀ update ∈ subUpdates (rt (bigUint64 header.number)) crypto cfg header extra,
      ∀ s, s.StakedBook → Ensures (update s) StakedBook :=
    subUpdates_stakedBook (hheaders header (by simp)) he
  exact Ensures.foldlM _ hinv
    (fun s hs update hu ↦ hstage update (mem_of_mem_take hu) s hs) t ht

end Run

theorem stake_pos_foldl_addGenesisVote {l : List Vote} (hl : ∀ v ∈ l, 0 < v.stake)
    (hs : ∀ (a : Address) (v : Vote), s.votes[a]? = some v → 0 < v.stake) (a : Address) (v : Vote)
    (h : (l.foldl addGenesisVote s).votes[a]? = some v) : 0 < v.stake := by
  induction l generalizing s with
  | nil => exact hs a v h
  | cons w l ih =>
    refine ih (fun v hv ↦ hl v (mem_cons_of_mem w hv)) (fun b u hu ↦ ?_) h
    simp only [addGenesisVote, ExtTreeMap.getElem?_insert] at hu
    split at hu
    · cases hu
      exact hl _ mem_cons_self
    · exact hs b u hu

theorem newSnapshot_stakedBook (cfg : Config) (now : UInt64) (hash : Hash) {votes : List Vote}
    (lcrs : UInt64) (hdis : (votes.map (·.voter)).Nodup) (hstk : ∀ v ∈ votes, 0 < v.stake) :
    (newSnapshot cfg now hash votes lcrs).StakedBook :=
  ⟨newSnapshot_bookInv cfg now hash lcrs hdis (fun v hv ↦ (hstk v hv).le),
    stake_pos_foldl_addGenesisVote hstk (fun a v hv ↦ by simp at hv)⟩

/-- While no genesis vote, no vote and no changed stake is of stake zero, no point of
a run has a vote without an entry in the tally, so the entry is there whenever
the votes of any header are counted. -/
theorem votes_never_dangle (rt : UInt64 → Runtime) (crypto : Crypto) (cfg : Config) (now : UInt64)
    (hash : Hash) (lcrs : UInt64) (votes : List Vote) (batches : List (List Header))
    (headers : List Header) (s : Snapshot) (hdis : (votes.map (·.voter)).Nodup)
    (hstk : ∀ v ∈ votes, 0 < v.stake)
    (hcarry : ∀ header ∈ batches.flatten ++ headers, CarriesStake header)
    (hrun : (newSnapshot cfg now hash votes lcrs).applyAll rt crypto cfg batches = .ok s) :
    s.NoDangling ∧ ∀ t, PointOf rt crypto cfg s headers t →
      t.NoDangling ∧ (∀ votes n, ∃ u, t.updateSnapshotByVotes votes n = .ok u) ∧
        ∀ votes, ∃ u, t.updateSnapshotByMPVotes votes = .ok u := by
  have hnew := newSnapshot_stakedBook cfg now hash lcrs hdis hstk
  have hs : s.StakedBook := by
    refine Ensures.foldlM batches hnew (fun u hu headers hh ↦ hu.apply (fun header hhd ↦ ?_)) s
      hrun
    exact hcarry header (mem_append_left _ (mem_flatten.mpr ⟨headers, hh, hhd⟩))
  refine ⟨hs.noDangling, fun t ht ↦ ?_⟩
  have hdan : t.NoDangling :=
    (hs.pointOf (fun header hh ↦ hcarry header (mem_append_right _ hh)) ht).noDangling
  exact ⟨hdan, hdan.updateSnapshotByVotes, hdan.updateSnapshotByMPVotes⟩

/-- A run with votes of positive stake, up to the last sub-update of its second header. -/
theorem votes_never_dangle_two_headers :
    ∃ s t, smallStart.applyAll (fun _ ↦ .inOrder) .byNumber .small
        [[.ofExtra 1 { zero with currentBlockVotes := [⟨2, 1, 6⟩] }]] = .ok s ∧
      PointOf (fun _ ↦ .inOrder) .byNumber .small s
        [.ofExtra 2 { zero with modifyPredecessorVotes := [⟨2, 0, 7⟩] }] t ∧
      t.tally.getD 1 0 = 12 ∧ t.NoDangling := by
  obtain ⟨s, hs, t, ht, htal⟩ : ∃ s, smallStart.applyAll (fun _ ↦ .inOrder)
      .byNumber .small [[.ofExtra 1 { zero with currentBlockVotes := [⟨2, 1, 6⟩] }]] = .ok s ∧
      ∃ t, ((subUpdates .inOrder .byNumber .small
        (.ofExtra 2 { zero with modifyPredecessorVotes := [⟨2, 0, 7⟩] })
        { zero with modifyPredecessorVotes := [⟨2, 0, 7⟩] }).take 14).foldlM
          (fun s update ↦ update s) s.copy = .ok t ∧ t.tally.getD 1 0 = 12 := by decide +kernel
  have hpoint : PointOf (fun _ ↦ .inOrder) .byNumber .small s
      [.ofExtra 2 { zero with modifyPredecessorVotes := [⟨2, 0, 7⟩] }] t :=
    ⟨[], _, [], s.copy, _, 14, rfl, rfl, decodeExtra_ofExtra (by decide +kernel) (by decide +kernel), ht⟩
  refine ⟨s, t, hs, hpoint, htal, ?_⟩
  refine ((votes_never_dangle _ _ _ 0 0 10 [⟨1, 1, 5⟩] _ _ s (by decide) (by decide) ?_ hs).2 t
    hpoint).1
  simp only [flatten_cons, flatten_nil, append_nil, singleton_append, forall_mem_cons]
  exact ⟨carriesStake_ofExtra (by decide +kernel) (by decide +kernel) (by decide),
    carriesStake_ofExtra (by decide +kernel) (by decide +kernel) (by decide), by simp⟩

/-- An emptied account votes for itself in the genesis block. The first header sweeps
its tally and keeps its vote; its next vote acts on the missing entry. -/
theorem zero_stake_vote_dangles :
    ∃ s, (newSnapshot .small 0 0 [⟨7, 7, 0⟩] 10).applyAll (fun _ ↦ .inOrder) .byNumber .small
        [[.ofExtra 1 .zero]] = .ok s ∧
      s.votes[(7 : Address)]? = some ⟨7, 7, 0⟩ ∧ 7 ∉ s.tally ∧
      s.apply (fun _ ↦ .inOrder) .byNumber .small
        [.ofExtra 2 { zero with currentBlockVotes := [⟨7, 8, 5⟩] }] = .error .panic := by
  decide +kernel

end BjutEth.Alien.Snapshot
