import BjutEth.Alien.TxSafety

namespace BjutEth.Alien

open Outcome GoText List Transaction

def Transaction.moves (tx : Transaction) (address : Address) : Prop :=
  ∃ sender recipient, tx.sender = some sender ∧ tx.recipient = some recipient ∧ 0 < tx.value ∧
    (address = sender ∨ address = recipient)

/-- A confirmation of a side chain whose number or time does not parse: `continue` leaves
the round before the voters are checked. -/
def Transaction.skipsVoters (tx : Transaction) : Bool :=
  match tx.request with
  | none => false
  | some (category, action, fields) =>
    category = ufoCategorySC && action = ufoEventConfirm && 5 ≤ fields.length &&
      ((bigUnmarshalText (fields.getD 1 [])).isNone || (bigUnmarshalText (fields.getD 2 [])).isNone)

def Transaction.movedVoters (snap : Snapshot) (tx : Transaction) : List Address :=
  match tx.sender, tx.recipient with
  | some sender, some recipient =>
    if 0 < tx.value ∧ tx.skipsVoters = false then [sender, recipient].filter snap.isVoter else []
  | _, _ => []

theorem Transaction.mem_movedVoters {snap : Snapshot} {tx : Transaction} {voter : Address} :
    voter ∈ tx.movedVoters snap ↔ tx.moves voter ∧ tx.skipsVoters = false ∧ snap.isVoter voter = true := by
  unfold movedVoters moves
  cases tx.sender with
  | none => simp
  | some sender =>
    cases tx.recipient with
    | none => simp
    | some recipient =>
      split_ifs with h
      · simp only [List.mem_filter, mem_cons, not_mem_nil, or_false, Option.some.injEq,
          exists_and_left, exists_eq_left', h.1, true_and, h.2]
      simp only [not_mem_nil, Option.some.injEq, exists_and_left, exists_eq_left', false_iff]
      rintro ⟨⟨hval, -⟩, hskp, -⟩
      exact h ⟨hval, hskp⟩

namespace TxResults

def voters (results : TxResults) : List Address :=
  results.headerExtra.modifyPredecessorVotes.map (·.voter)

variable {config : AlienConfig} {chain : ChainReader} {number : UInt64} {snap : Option Snapshot}
  {txDataInfo : List Text} {tx : Transaction} {txSender : Address} {results : TxResults}

theorem voters_payProposal (results : TxResults) (proposal : Proposal) (pay : ℤ) :
    (results.payProposal proposal pay).voters = results.voters := by
  unfold payProposal
  split_ifs <;> rfl

theorem processEventProposal_voters :
    Ensures (processEventProposal config txDataInfo tx txSender snap results)
      (·.voters = results.voters) := by
  unfold processEventProposal
  split_ifs
  · exact .ok rfl
  refine .bind_any (fun built ↦ ?_)
  cases built with
  | none => exact .ok rfl
  | some proposal =>
    dsimp only
    split_ifs
    · refine .bind_any (fun s ↦ .ok ?_)
      split_ifs
      · rfl
      · exact voters_payProposal results proposal _
    · exact .ok (voters_payProposal results proposal _)

theorem processEventDeclare_voters :
    Ensures (processEventDeclare txDataInfo txSender results) (·.voters = results.voters) := by
  unfold processEventDeclare
  split_ifs
  · exact .ok rfl
  refine .bind_any (fun built ↦ ?_)
  cases built <;> exact .ok rfl

theorem processEventConfirm_voters :
    Ensures (processEventConfirm config chain txDataInfo number tx txSender results)
      (·.voters = results.voters) := by
  unfold processEventConfirm
  split_ifs
  · exact .ok rfl
  refine .bind_any (fun text ↦ ?_)
  cases bigUnmarshalText text with
  | none => exact .ok rfl
  | some confirmedBlockNumber =>
    refine .ok ?_
    split_ifs <;> rfl

theorem processEvent_voters :
    Ensures (processEvent config chain number snap txDataInfo tx txSender results)
      (·.voters = results.voters) := by
  unfold processEvent
  split_ifs
  · exact .ok rfl
  refine .bind_any (fun action ↦ ?_)
  split_ifs
  · refine .bind_any (fun may ↦ ?_)
    split_ifs
    · exact .bind_any (fun candidate ↦ .ok rfl)
    · exact .ok rfl
  · refine .bind_any (fun s ↦ ?_)
    split_ifs
    · exact processEventConfirm_voters
    · exact .ok rfl
  · exact processEventProposal_voters
  · refine .bind_any (fun s ↦ ?_)
    split_ifs
    · exact processEventDeclare_voters
    · exact .ok rfl
  · exact .ok rfl

theorem processSCSetCoinbase_voters :
    Ensures (processSCSetCoinbase snap txDataInfo tx txSender results) (·.voters = results.voters) := by
  refine .bind_any (fun s ↦ ?_)
  split_ifs
  · exact .bind_any (fun hashText ↦ .bind_any (fun coinbase ↦ .ok rfl))
  · exact .ok rfl

theorem processSCConfirm_voters {first version : Text} {fields : List Text}
    (hinfo : txDataInfo = first :: version :: ufoCategorySC :: ufoEventConfirm :: fields)
    (hreq : tx.request = some (ufoCategorySC, ufoEventConfirm, fields)) :
    Ensures (processSCConfirm txDataInfo tx txSender results)
      (fun r ↦ r.1.voters = results.voters ∧ r.2 = !tx.skipsVoters) := by
  have hlen : txDataInfo.length ≤ ufoMinSplitLen + 5 ↔ ¬ 5 ≤ fields.length := by
    rw [hinfo]
    simp only [length_cons, ufoMinSplitLen]
    omega
  unfold processSCConfirm skipsVoters
  rw [hreq]
  split_ifs with hsh
  · refine .ok ⟨rfl, ?_⟩
    simp [hlen.mp hsh]
  obtain ⟨hashText, numberText, timeText, loopInfo, chargingInfo, more, rfl⟩ :
      ∃ a b c d f more, fields = a :: b :: c :: d :: f :: more := by
    refine ⟨fields[0], fields[1], fields[2], fields[3], fields[4], fields.drop 5, ?_⟩
    rw [getElem_cons_drop, getElem_cons_drop, getElem_cons_drop, getElem_cons_drop,
      getElem_cons_drop, drop_zero]
  subst hinfo
  refine .bind_of_ok (a := numberText) rfl (.bind_of_ok (a := timeText) rfl ?_)
  simp only [getD_cons_succ, getD_cons_zero]
  cases bigUnmarshalText numberText with
  | none => exact .ok ⟨rfl, by simp⟩
  | some number =>
    cases bigUnmarshalText timeText with
    | none => exact .ok ⟨rfl, by simp⟩
    | some time =>
      refine .bind_any (fun _ ↦ .bind_any (fun _ ↦ .bind_any (fun _ ↦ .ok ⟨?_, by simp⟩)))
      unfold processSCEventNoticeConfirm
      split_ifs <;> rfl

theorem processData_voters :
    Ensures (processData config chain number snap tx txSender results)
      (fun r ↦ r.1.voters = results.voters ∧ r.2 = !tx.skipsVoters) := by
  obtain ⟨fields, hfld, hinfo⟩ := ufoFields_spec tx.data
  have hskp : tx.request = none → tx.skipsVoters = false := fun hnone ↦ by
    rw [skipsVoters, hnone]
  refine .bind_of_ok hfld ?_
  cases fields with
  | none => exact .ok ⟨rfl, by rw [hskp (by rw [request, hfld])]; rfl⟩
  | some txDataInfo =>
    obtain ⟨-, first, version, category, rest, rfl⟩ := hinfo txDataInfo rfl
    refine .bind_of_ok (a := category) rfl ?_
    cases rest with
    | nil =>
      have hnone : tx.request = none := by rw [request, hfld]
      have hsh : [first, version, category].length ≤ ufoMinSplitLen := le_rfl
      rw [hskp hnone]
      split_ifs
      · exact .bind processEvent_voters (fun r hr ↦ .ok ⟨hr, rfl⟩)
      · exact .ok ⟨rfl, rfl⟩
      · exact .ok ⟨rfl, rfl⟩
      · exact .ok ⟨rfl, rfl⟩
    | cons action fields =>
      have hreq : tx.request = some (category, action, fields) := by
        rw [request, hfld]
      have hoth : category ≠ ufoCategorySC ∨ action ≠ ufoEventConfirm → tx.skipsVoters = false := by
        intro hne
        rw [skipsVoters, hreq]
        rcases hne with hne | hne <;> simp [hne]
      split_ifs with hevent hlog hsc
      · have hskp := hoth (.inl (hevent ▸ ufoNames_ne.1.symm))
        exact .bind processEvent_voters (fun r hr ↦ .ok ⟨hr, by rw [hskp]; rfl⟩)
      · have hskp := hoth (.inl (hlog ▸ ufoNames_ne.2.1.symm))
        exact .ok ⟨rfl, by rw [hskp]; rfl⟩
      · subst hsc
        have hlong : ¬ (first :: version :: ufoCategorySC :: action :: fields).length ≤ ufoMinSplitLen := by
          simp [ufoMinSplitLen]
        refine .bind_of_ok (a := action) rfl ?_
        split_ifs with hcon hset
        · subst hcon
          exact processSCConfirm_voters rfl hreq
        · have hskp := hoth (.inr hcon)
          exact .bind processSCSetCoinbase_voters (fun r hr ↦ .ok ⟨hr, by rw [hskp]; rfl⟩)
        · exact .ok ⟨rfl, by rw [hoth (.inr hcon)]; rfl⟩
      · exact .ok ⟨rfl, by rw [hoth (.inl hsc)]; rfl⟩

theorem voters_modifyVoter (snap : Snapshot) (voter : Address) (results : TxResults) :
    (results.modifyVoter snap voter).voters = results.voters ++ [voter].filter snap.isVoter := by
  unfold modifyVoter voters
  split_ifs with hvoter
  · rw [map_append, filter_cons_of_pos hvoter]
    rfl
  · rw [filter_cons_of_neg hvoter]
    exact (append_nil _).symm

variable {results' : TxResults}

theorem processPredecessorVoter_voters {snap : Snapshot}
    (h : processPredecessorVoter tx txSender (some snap) results = .ok results')
    (htx : tx.sender = some txSender) (hskp : tx.skipsVoters = false) :
    results'.voters = results.voters ++ tx.movedVoters snap := by
  unfold processPredecessorVoter at h
  unfold movedVoters
  rw [htx, hskp]
  cases hto : tx.recipient with
  | none =>
    rw [hto] at h
    cases h
    exact (append_nil _).symm
  | some recipient =>
    rw [hto] at h
    dsimp only at h ⊢
    by_cases hval : 0 < tx.value
    · rw [if_pos hval] at h
      cases h
      have hpair : [txSender, recipient].filter snap.isVoter =
          [txSender].filter snap.isVoter ++ [recipient].filter snap.isVoter :=
        filter_append [txSender] [recipient]
      rw [if_pos ⟨hval, rfl⟩, voters_modifyVoter, voters_modifyVoter, List.append_assoc, hpair]
    rw [if_neg hval] at h
    cases h
    rw [if_neg (fun h ↦ hval h.1), append_nil]

theorem processTx_voters {snap : Snapshot} (hnum : number > 1)
    (h : processTx config chain number (some snap) results tx = .ok results') :
    results'.voters = results.voters ++ tx.movedVoters snap := by
  unfold processTx at h
  cases htx : tx.sender with
  | none =>
    rw [htx] at h
    cases h
    rw [movedVoters, htx, append_nil]
  | some txSender =>
    rw [htx] at h
    obtain ⟨⟨u, checkVoters⟩, hdata, h⟩ := bind_eq_ok.mp h
    obtain ⟨hvrs, hflag⟩ := processData_voters _ hdata
    dsimp only at h hvrs hflag
    rw [hflag] at h
    rw [← hvrs]
    cases hskp : tx.skipsVoters with
    | true =>
      rw [hskp] at h
      cases h
      have hnone : tx.movedVoters snap = [] := by
        refine eq_nil_iff_forall_not_mem.mpr (fun voter hmem ↦ ?_)
        rw [mem_movedVoters, hskp] at hmem
        cases hmem.2.1
      rw [hnone, append_nil]
    | false =>
      rw [hskp, if_pos ⟨rfl, hnum⟩] at h
      exact processPredecessorVoter_voters h htx hskp

theorem processTxs_voters {snap : Snapshot} {txs : List Transaction}
    (hnum : number > 1)
    (h : processTxs config chain number (some snap) results txs = .ok results') :
    results'.voters = results.voters ++ txs.flatMap (·.movedVoters snap) := by
  induction txs generalizing results with
  | nil =>
    cases h
    exact (append_nil _).symm
  | cons tx txs ih =>
    obtain ⟨u, hu, h⟩ := bind_eq_ok.mp h
    rw [ih h, processTx_voters hnum hu, flatMap_cons, List.append_assoc]

end TxResults

namespace Engine

variable {rt : UInt64 → Runtime} {crypto : Crypto} {chain : ChainReader} {now : ℕ} {header : Header}
  {snap : Snapshot} {e e1 e' : Engine}

/-- Every voter that a transaction moves is listed, exactly where those moved by a skipped
transaction are listed for another reason. -/
theorem moved_voters_listed_iff {headerExtra : HeaderExtra} {balances : GoMap Address ℤ}
    {txs : List Transaction} {receipts : List Receipt} {result : CustomTxResult}
    (hnum : bigUint64 header.number > 1)
    (hsnap : snapshot rt crypto chain now (bigUint64 header.number - 1) header.parentHash [] []
      defaultLoopCntRecalculateSigners e = (.ok snap, e1))
    (hrun : processCustomTx rt crypto chain now headerExtra header balances txs receipts e =
      (.ok result, e')) :
    (∀ tx ∈ txs, ∀ voter, tx.moves voter → snap.isVoter voter = true →
        ∃ vote ∈ result.headerExtra.modifyPredecessorVotes, vote.voter = voter) ↔
      ∀ tx ∈ txs, ∀ voter, tx.moves voter → snap.isVoter voter = true → tx.skipsVoters = true →
        (∃ vote ∈ headerExtra.modifyPredecessorVotes, vote.voter = voter) ∨
          ∃ tx' ∈ txs, tx'.moves voter ∧ tx'.skipsVoters = false := by
  have hcustom : customTxSnapshot rt crypto chain now header e = (.ok (some snap), e1) := by
    unfold customTxSnapshot
    rw [if_pos hnum]
    exact Call.bind_of_ok hsnap
  rw [processCustomTx_eq hcustom, Prod.mk.injEq, bind_eq_ok] at hrun
  obtain ⟨⟨results, hresults, hres⟩, -⟩ := hrun
  cases hres
  have hlist : ∀ voter, (∃ vote ∈ results.headerExtra.modifyPredecessorVotes, vote.voter = voter) ↔
      (∃ vote ∈ headerExtra.modifyPredecessorVotes, vote.voter = voter) ∨
        ∃ tx ∈ txs, tx.moves voter ∧ tx.skipsVoters = false ∧ snap.isVoter voter = true := by
    intro voter
    have hvrs := TxResults.processTxs_voters hnum hresults
    rw [← List.mem_map, ← List.mem_map]
    change voter ∈ results.voters ↔ _
    rw [hvrs, mem_append, mem_flatMap]
    simp only [mem_movedVoters]
    rfl
  constructor
  · intro hall tx htx voter hmoves hvoter _
    refine ((hlist voter).mp (hall tx htx voter hmoves hvoter)).imp_right ?_
    rintro ⟨tx', htx', hmoves', hskp', -⟩
    exact ⟨tx', htx', hmoves', hskp'⟩
  intro hskipped tx htx voter hmoves hvoter
  rw [hlist]
  cases hskp : tx.skipsVoters with
  | false => exact .inr ⟨tx, htx, hmoves, hskp, hvoter⟩
  | true =>
    refine (hskipped tx htx voter hmoves hvoter hskp).imp_right ?_
    rintro ⟨tx', htx', hmoves', hskp'⟩
    exact ⟨tx', htx', hmoves', hskp', hvoter⟩

def votedChain : ChainReader :=
  .ofHeaders .byNumber Config.small.toAlienConfig (fun _ _ ↦ goPanic) (.ofExtra 0 .zero) Header.ofExtra_zero_number
    [.ofExtra 1 { HeaderExtra.zero with currentBlockVotes := [⟨5, 6, 100⟩] }]

def processVotedBlock (txs : List Transaction) : Go CustomTxResult × Engine :=
  processCustomTx (fun _ ↦ .inOrder) .byNumber votedChain 0 .zero (customTxHeader 2)
    ((∅ : GoMap Address ℤ).insert 5 100) txs [] (.new Config.small.toAlienConfig ∅)

def transferTx (data : String) : Transaction := ⟨some 5, some 6, 40, 1, ofString data, 7⟩

theorem moved_voters_listed_transfer :
    ∃ result e', processVotedBlock [transferTx "rent"] = (.ok result, e') ∧
      ∃ vote ∈ result.headerExtra.modifyPredecessorVotes, vote.voter = 5 := by
  obtain ⟨snap, hsnap, hvoter⟩ : ∃ snap, (snapshot (fun _ ↦ .inOrder) .byNumber votedChain 0 1 1 [] []
      defaultLoopCntRecalculateSigners (.new Config.small.toAlienConfig ∅)).1 = .ok snap ∧
        snap.isVoter 5 = true := by decide +kernel
  have hok : (processVotedBlock [transferTx "rent"]).1.isOk = true := by decide +kernel
  obtain ⟨_, hsnap⟩ := Call.exists_of_fst hsnap
  obtain ⟨result, hres⟩ := exists_of_isOk hok
  obtain ⟨e', hres⟩ := Call.exists_of_fst hres
  have hlist := (moved_voters_listed_iff (by decide +kernel) hsnap hres).mpr (by
    intro tx htx voter _ _ hskp
    rw [mem_singleton.mp htx] at hskp
    exact absurd hskp (by decide +kernel))
  exact ⟨result, e', hres, hlist _ mem_cons_self 5 ⟨5, 6, rfl, rfl, by decide, .inl rfl⟩ hvoter⟩

/-- The vote of the sender keeps its old stake: the block time of the confirmation is
not a number. -/
theorem skipped_transfer_not_listed :
    let tx := transferTx "ufo:1:sc:confirm:0x9:4:soon:1#2:"
    tx.moves 5 ∧
    (∃ snap, (snapshot (fun _ ↦ .inOrder) .byNumber votedChain 0 1 1 [] []
      defaultLoopCntRecalculateSigners (.new Config.small.toAlienConfig ∅)).1 = .ok snap ∧
        snap.isVoter 5 = true) ∧
    ((processVotedBlock [tx]).1.map (·.headerExtra.modifyPredecessorVotes)) = .ok [] :=
  ⟨⟨5, 6, rfl, rfl, by decide, .inl rfl⟩, by decide +kernel, by decide +kernel⟩

end Engine

end BjutEth.Alien
