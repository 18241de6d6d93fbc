import BjutEth.Alien.Apply

namespace BjutEth.Alien.Snapshot

open Outcome NoErr

/-! What each sub-update leaves alone: the snapshot without the fields that it writes. -/

def withoutQueue (s : Snapshot) : Snapshot :=
  { s with headerTime := 0, loopStartTime := 0, signers := [], confirmedNumber := 0,
           historyHash := [] }

def withoutVotes (s : Snapshot) : Snapshot :=
  { s with tally := ∅, candidates := ∅, votes := ∅, voters := ∅ }

def withoutProposals (s : Snapshot) : Snapshot := { s with proposals := ∅, loopVar := ∅ }

def withoutRecords (s : Snapshot) : Snapshot := { s with scRecordMap := ∅, scRewardMap := ∅ }

def withoutNotices (s : Snapshot) : Snapshot := { s with scNoticeMap := ∅ }

def withoutResults (s : Snapshot) : Snapshot :=
  { s with minerReward := 0, minVB := 0, scRecordMap := ∅, scNoticeMap := ∅, proposalRefund := ∅,
           proposals := ∅ }

def withoutCandidates (s : Snapshot) : Snapshot := { s with scCoinbase := ∅, candidates := ∅ }

def withoutLocalNotice (s : Snapshot) : Snapshot := { s with localNotice := ⟨∅, ∅⟩ }

def withoutExpired (s : Snapshot) : Snapshot :=
  { s with tally := ∅, votes := ∅, voters := ∅, confirmations := ∅, scCoinbase := ∅ }

theorem kept {β : Type} (f : Snapshot → β) {mask : Snapshot → Snapshot} {s t : Snapshot}
    (h : mask t = mask s) (hmask : ∀ s, f (mask s) = f s) : f t = f s := by
  rw [← hmask t, h, hmask]

variable {rt : Runtime} {crypto : Crypto} {cfg : Config} {header : Header} {extra : HeaderExtra}
  {s t : Snapshot} {n : ℤ}

theorem openHeader_frame (h : openHeader crypto cfg header extra s = .ok t) :
    t.withoutQueue = s.withoutQueue := by
  obtain ⟨history, -, ht⟩ := bind_eq_ok.mp h
  cases ht
  rfl

theorem updateSnapshotByVotes_frame {votes : List Vote}
    (h : s.updateSnapshotByVotes votes n = .ok t) : t.withoutVotes = s.withoutVotes := by
  refine foldlM_keeps (addVote n) withoutVotes (fun s v t h ↦ ?_) votes h
  obtain ⟨tally, -, ht⟩ := bind_eq_ok.mp h
  cases ht
  cases tally[v.candidate]? <;> rfl

theorem updateSnapshotByMPVotes_frame {votes : List Vote}
    (h : s.updateSnapshotByMPVotes votes = .ok t) :
    t.withoutVotes = s.withoutVotes ∧ t.voters = s.voters ∧ t.candidates = s.candidates := by
  have hkeep : (t.withoutVotes, t.voters, t.candidates) = (s.withoutVotes, s.voters, s.candidates) := by
    refine foldlM_keeps modifyVote (fun s ↦ (s.withoutVotes, s.voters, s.candidates))
      (fun s v t h ↦ ?_) votes h
    unfold modifyVote at h
    split at h
    · cases h; rfl
    obtain ⟨tally, -, ht⟩ := bind_eq_ok.mp h
    cases ht; rfl
  simpa only [Prod.mk.injEq] using hkeep

theorem updateSnapshotByProposals_frame (s : Snapshot) (proposals : List Proposal) (n : ℤ) :
    (s.updateSnapshotByProposals proposals n).withoutProposals = s.withoutProposals :=
  foldl_keeps (storeProposal n s.freshVar) withoutProposals (fun _ _ ↦ rfl) proposals s

theorem updateSnapshotByDeclares_frame (cfg : Config) (s : Snapshot) (declares : List Declare)
    (n : ℤ) : (s.updateSnapshotByDeclares cfg declares n).withoutProposals = s.withoutProposals :=
  foldl_keeps (addDeclare cfg n) withoutProposals (fun _ _ ↦ rfl) declares s

theorem confirmRecord_frame {entry : Hash × SCRecord} (h : s.confirmRecord rt cfg n entry = .ok t) :
    t.withoutRecords = s.withoutRecords := by
  obtain ⟨_, -, h⟩ := bind_eq_ok.mp h
  obtain ⟨_, -, h⟩ := bind_eq_ok.mp h
  cases h
  rfl

theorem updateSCConfirmation_frame (h : s.updateSCConfirmation rt cfg n = .ok t) :
    t.withoutRecords = s.withoutRecords := by
  obtain ⟨u, hu, ht⟩ := bind_eq_ok.mp h
  have hkeep := foldlM_keeps (confirmRecord rt cfg n) withoutRecords
    (fun _ _ _ ↦ confirmRecord_frame) _ hu
  cases ht
  exact hkeep

theorem updateSnapshotBySCConfirm_frame {confirmations : List SCConfirmation}
    (h : s.updateSnapshotBySCConfirm rt cfg confirmations n = .ok t) :
    t.withoutRecords = s.withoutRecords := by
  have hrec := foldl_keeps recordSCConfirm withoutRecords (fun _ _ ↦ rfl) confirmations s
  unfold updateSnapshotBySCConfirm at h
  split at h
  · exact (updateSCConfirmation_frame h).trans hrec
  cases h
  exact hrec

theorem updateSnapshotByNoticeConfirm_frame (cfg : Config) (s : Snapshot)
    (confirmed : List SCConfirmation) (n : ℤ) :
    (s.updateSnapshotByNoticeConfirm cfg confirmed n).withoutNotices = s.withoutNotices := by
  have hrec := foldl_keeps recordNoticeConfirm withoutNotices (fun _ _ ↦ rfl) confirmed s
  unfold updateSnapshotByNoticeConfirm
  split
  · exact hrec
  · exact hrec

variable {p : Proposal}

theorem rentSideChain_frame (h : s.rentSideChain n p = .ok t) :
    t.withoutResults = s.withoutResults := by
  unfold rentSideChain at h
  split at h
  · cases h; rfl
  split at h
  · cases h
  · cases h; rfl

theorem enactProposal_frame (h : s.enactProposal n p = .ok t) :
    t.withoutResults = s.withoutResults := by
  unfold enactProposal at h
  simp only [candidateNeedPD, Bool.and_false, Bool.false_eq_true, if_false] at h
  split_ifs at h
  all_goals first
    | exact rentSideChain_frame h
    | cases h; rfl

theorem decideProposal_frame (h : s.decideProposal n p = .ok t) :
    t.withoutResults = s.withoutResults := by
  unfold decideProposal at h
  split at h
  · exact enactProposal_frame h
  cases h
  rfl

theorem settleProposal_frame {entry : Hash × Proposal}
    (h : s.settleProposal cfg n entry = .ok t) : t.withoutResults = s.withoutResults := by
  unfold settleProposal at h
  simp only at h
  split at h
  · obtain ⟨u, hu, ht⟩ := bind_eq_ok.mp h
    have hkeep := decideProposal_frame hu
    cases ht
    exact hkeep
  · cases h
    rfl

theorem calculateProposalResult_frame (h : s.calculateProposalResult rt cfg n = .ok t) :
    t.withoutResults = s.withoutResults := by
  have hkeep := foldlM_keeps (settleProposal cfg n) withoutResults
    (fun _ _ _ ↦ settleProposal_frame) _ h
  exact hkeep

theorem removeExtraCandidate_frame (rt : Runtime) (s : Snapshot) :
    (s.removeExtraCandidate rt).withoutCandidates = s.withoutCandidates :=
  foldl_keeps removeCandidate withoutCandidates (fun _ _ ↦ rfl) _ s

theorem checkCandidates_frame (h : checkCandidates rt cfg s = .ok t) :
    t.withoutCandidates = s.withoutCandidates := by
  unfold checkCandidates at h
  split_ifs at h <;> cases h
  · rfl
  · exact removeExtraCandidate_frame rt s
  · rfl

theorem updateSnapshotBySCCharging_frame {charging : List GasCharging} {coinbase : Address}
    (h : s.updateSnapshotBySCCharging cfg charging n coinbase = .ok t) :
    t.withoutLocalNotice = s.withoutLocalNotice := by
  obtain ⟨_, -, ht⟩ := bind_eq_ok.mp h
  cases ht
  rfl

theorem dropExpired_frame (rt : Runtime) (cfg : Config) (s : Snapshot) (n : ℤ) :
    (s.dropExpired rt cfg n).withoutExpired = s.withoutExpired := by
  unfold dropExpired
  simp only
  split
  · exact foldl_keeps dropVote withoutExpired (fun _ _ ↦ rfl) _ s
  · rfl

theorem updateSnapshotForExpired_frame (rt : Runtime) (cfg : Config) (s : Snapshot) (n : ℤ) :
    (s.updateSnapshotForExpired rt cfg n).withoutExpired = s.withoutExpired :=
  dropExpired_frame rt cfg s n

def fixedPart (s : Snapshot) : UInt64 × UInt64 × Hash := (s.lcrs, s.number, s.hash)

def scorePart (s : Snapshot) : (UInt64 × UInt64 × Hash) × GoMap Address UInt64 :=
  (s.fixedPart, s.punished)

/-- What every sub-update keeps, but for the one that punishes. -/
theorem subUpdates_scorePart : ∀ update ∈ subUpdates rt crypto cfg header extra,
    ∀ s t, update s = .ok t → t.scorePart = s.scorePart ∨
      t = s.updateSnapshotForPunish cfg extra.signerMissing header.number header.coinbase := by
  simp only [subUpdates, List.forall_mem_cons]
  refine ⟨fun s t ht ↦ .inl ?_, fun s t ht ↦ .inl ?_, fun s t ht ↦ .inl ?_, fun s t ht ↦ .inl ?_,
    fun s t ht ↦ .inr ?_, fun s t ht ↦ .inl ?_, fun s t ht ↦ .inl ?_, fun s t ht ↦ .inl ?_,
    fun s t ht ↦ .inl ?_, fun s t ht ↦ .inl ?_, fun s t ht ↦ .inl ?_, fun s t ht ↦ .inl ?_,
    fun s t ht ↦ .inl ?_, fun s t ht ↦ .inl ?_, fun s t ht ↦ .inl ?_, by simp⟩
  · exact kept scorePart (openHeader_frame ht) (fun _ ↦ rfl)
  · cases ht; rfl
  · exact kept scorePart (updateSnapshotByVotes_frame ht) (fun _ ↦ rfl)
  · exact kept scorePart (updateSnapshotByMPVotes_frame ht).1 (fun _ ↦ rfl)
  · cases ht; rfl
  · cases ht
    exact kept scorePart (updateSnapshotByProposals_frame s _ _) (fun _ ↦ rfl)
  · cases ht
    exact kept scorePart (updateSnapshotByDeclares_frame cfg s _ _) (fun _ ↦ rfl)
  · cases ht; rfl
  · cases ht; rfl
  · exact kept scorePart (updateSnapshotBySCConfirm_frame ht) (fun _ ↦ rfl)
  · cases ht
    exact kept scorePart (updateSnapshotByNoticeConfirm_frame cfg s _ _) (fun _ ↦ rfl)
  · exact kept scorePart (calculateProposalResult_frame ht) (fun _ ↦ rfl)
  · exact kept scorePart (checkCandidates_frame ht) (fun _ ↦ rfl)
  · exact kept scorePart (updateSnapshotBySCCharging_frame ht) (fun _ ↦ rfl)
  · cases ht
    exact kept scorePart (updateSnapshotForExpired_frame rt cfg s _) (fun _ ↦ rfl)

theorem subUpdates_fixedPart : ∀ update ∈ subUpdates rt crypto cfg header extra,
    ∀ s t, update s = .ok t → t.fixedPart = s.fixedPart := by
  intro update hu s t ht
  obtain h | rfl := subUpdates_scorePart update hu s t ht
  · exact congrArg Prod.fst h
  rfl

/-! Sub-updates have no errors to return. -/

theorem subTally_noErr (tally : GoMap Address ℤ) (v : Vote) : NoErr (subTally tally v) := by
  unfold subTally
  split
  · exact fun _ h ↦ (by cases h)
  · exact .ok _

theorem addVote_noErr (n : ℤ) (s : Snapshot) (v : Vote) : NoErr (addVote n s v) := by
  refine bind ?_ (fun _ ↦ .ok _)
  unfold retractVote
  split
  · exact .ok _
  · exact subTally_noErr _ _

theorem modifyVote_noErr (s : Snapshot) (v : Vote) : NoErr (modifyVote s v) := by
  unfold modifyVote
  split
  · exact .ok _
  · exact (subTally_noErr _ _).bind (fun _ ↦ .ok _)

theorem pushHistory_noErr (cfg : Config) (history : List Hash) (hash : Hash) :
    NoErr (pushHistory cfg history hash) := by
  unfold pushHistory
  simp only
  split_ifs
  · exact fun _ h ↦ (by cases h)
  · exact .ok _
  · exact .ok _

theorem scanConfirmation_noErr (minConf : ℕ) (scan : ConfirmScan) (c : SCConfirmation) :
    NoErr (scanConfirmation minConf scan c) := by
  unfold scanConfirmation
  simp only
  split_ifs
  all_goals try exact .ok _
  · exact fun _ h ↦ (by cases h)
  · split <;> exact .ok _

theorem confirmRecord_noErr (rt : Runtime) (cfg : Config) (n : ℤ) (s : Snapshot)
    (e : Hash × SCRecord) : NoErr (s.confirmRecord rt cfg n e) := by
  refine bind ?_ (fun _ ↦ bind ?_ (fun _ ↦ .ok _))
  · unfold calculateSCConfirmedNumber
    split
    · exact fun _ h ↦ (by cases h)
    · exact (foldlM (fun s c _ ↦ scanConfirmation_noErr _ s c) _).bind (fun _ ↦ .ok _)
  unfold scoreBlocks
  split_ifs
  · exact .ok _
  · exact fun _ h ↦ (by cases h)
  · exact .ok _

theorem updateSnapshotBySCConfirm_noErr (rt : Runtime) (cfg : Config) (s : Snapshot)
    (confirmations : List SCConfirmation) (n : ℤ) :
    NoErr (s.updateSnapshotBySCConfirm rt cfg confirmations n) := by
  unfold updateSnapshotBySCConfirm
  split
  · exact (foldlM (fun s e _ ↦ confirmRecord_noErr rt cfg n s e) _).bind (fun _ ↦ .ok _)
  · exact .ok _

theorem enactProposal_noErr (n : ℤ) (s : Snapshot) (p : Proposal) :
    NoErr (s.enactProposal n p) := by
  unfold enactProposal rentSideChain
  split_ifs
  all_goals try exact .ok _
  all_goals split
  all_goals first
    | exact .ok _
    | exact fun _ h ↦ (by cases h)

theorem settleProposal_noErr (cfg : Config) (n : ℤ) (s : Snapshot) (e : Hash × Proposal) :
    NoErr (s.settleProposal cfg n e) := by
  unfold settleProposal
  simp only
  split
  · refine bind ?_ (fun _ ↦ .ok _)
    unfold decideProposal
    split
    · exact enactProposal_noErr _ _ _
    · exact .ok _
  · exact .ok _

theorem checkCandidates_noErr (rt : Runtime) (cfg : Config) (s : Snapshot) :
    NoErr (checkCandidates rt cfg s) := by
  unfold checkCandidates
  split_ifs
  · exact .ok _
  · exact fun _ h ↦ (by cases h)
  · exact .ok _
  · exact .ok _

theorem addCharging_noErr (coinbase : Address) (notice : CCNotice) (charge : GasCharging) :
    NoErr (addCharging coinbase notice charge) := by
  unfold addCharging
  simp only
  split
  · exact fun _ h ↦ (by cases h)
  · exact .ok _

theorem subUpdates_noErr (rt : Runtime) (crypto : Crypto) (cfg : Config) (header : Header)
    (extra : HeaderExtra) (s : Snapshot) :
    NoErr ((subUpdates rt crypto cfg header extra).foldlM (fun s update ↦ update s) s) := by
  refine foldlM (fun s update hmem ↦ ?_) s
  revert update
  simp only [subUpdates, List.forall_mem_cons]
  refine ⟨(pushHistory_noErr _ _ _).bind (fun _ ↦ .ok _), .ok _,
    foldlM (fun s v _ ↦ addVote_noErr _ s v) s,
    foldlM (fun s v _ ↦ modifyVote_noErr s v) s, .ok _, .ok _, .ok _, .ok _, .ok _,
    updateSnapshotBySCConfirm_noErr _ _ _ _ _, .ok _,
    foldlM (fun s e _ ↦ settleProposal_noErr cfg _ s e) _, checkCandidates_noErr rt cfg s,
    (foldlM (fun s c _ ↦ addCharging_noErr _ s c) _).bind (fun _ ↦ .ok _), .ok _,
    by simp⟩

end BjutEth.Alien.Snapshot
