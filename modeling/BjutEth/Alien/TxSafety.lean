import BjutEth.Alien.CustomTx
import BjutEth.Alien.Runs

namespace BjutEth.Alien

open Outcome GoText Option PanicsIff List Transaction

theorem orPanic_getElem {α : Type} {l : List α} {i : ℕ} (h : i < l.length) :
    ∃ a, orPanic l[i]? = .ok a := ⟨l[i], by rw [getElem?_eq_getElem h]; rfl⟩

theorem foldlM_isOk {α β : Type} {f : β → α → Go β} {l : List α}
    (hf : ∀ acc, ∀ a ∈ l, ∃ result, f acc a = .ok result) (acc : β) : ∃ result, l.foldlM f acc = .ok result := by
  induction l generalizing acc with
  | nil => exact ⟨acc, rfl⟩
  | cons a l ih =>
    obtain ⟨result, hres⟩ := hf acc a mem_cons_self
    obtain ⟨last, hlast⟩ := ih (fun acc b hb ↦ hf acc b (mem_cons_of_mem a hb)) result
    refine ⟨last, ?_⟩
    rw [foldlM_cons, hres]
    exact hlast

theorem readFields_isOk {β : Type} (pos : ℕ) (txDataInfo : List Text)
    (field : β → Text → Text → Option β) (start : β) :
    ∃ result, readFields pos txDataInfo field start = .ok result := by
  refine foldlM_isOk (fun acc i hi ↦ ?_) _
  have hi := mem_range.mp hi
  rw [length_drop] at hi
  cases acc with
  | none => exact ⟨none, rfl⟩
  | some b =>
    obtain ⟨k, hk⟩ := orPanic_getElem (l := txDataInfo) (i := pos + 1 + i * 2) (by omega)
    obtain ⟨v, hv⟩ := orPanic_getElem (l := txDataInfo) (i := pos + 2 + i * 2) (by omega)
    simp only [hk, hv]
    exact ⟨field b k v, rfl⟩

theorem ufoFields_spec (data : Bytes) : ∃ fields, ufoFields data = .ok fields ∧
    ∀ txDataInfo, fields = some txDataInfo → txDataInfo = split 58 data ∧
      ∃ first version category rest, txDataInfo = first :: version :: category :: rest := by
  unfold ufoFields
  dsimp only
  match hinfo : split 58 data with
  | [] | [_] | [_, _] => exact ⟨none, by simp [ufoMinSplitLen], by simp⟩
  | first :: version :: category :: rest =>
    split_ifs with hsh
    · exact ⟨none, rfl, by simp⟩
    refine ⟨_, rfl, fun txDataInfo h ↦ ?_⟩
    split_ifs at h
    cases h
    exact ⟨rfl, first, version, category, rest, rfl⟩

example : ufoFields [] = .ok none := by decide +kernel

def Transaction.request (tx : Transaction) : Option (Text × Text × List Text) :=
  match ufoFields tx.data with
  | .ok (some (_ :: _ :: category :: action :: rest)) => some (category, action, rest)
  | _ => none

def asksForRent (config : AlienConfig) (txDataInfo : List Text) (hash : Hash) (proposer : Address) : Bool :=
  txDataInfo.length > posEventProposal + 2 &&
    match readFields posEventProposal txDataInfo proposalField (.fresh config hash proposer) with
    | .ok (some proposal) => proposal.proposalType = proposalTypeRentSideChain
    | _ => false

/-- The transactions that go through a nil pointer: to the snapshot, which the first block
does not have, or to the recipient. -/
def crashes (config : AlienConfig) (snap : Option Snapshot) (balances : GoMap Address ℤ)
    (tx : Transaction) : Bool :=
  match tx.sender, tx.request with
  | some sender, some (category, action, rest) =>
    if category = ufoCategoryEvent then
      if action = ufoEventVote then
        match snap with
        | none => true
        | some snap => balances.getD sender 0 > snap.minVB && tx.recipient.isNone
      else if action = ufoEventConfirm then snap.isNone
      else if action = ufoEventPorposal then
        snap.isNone && asksForRent config (split 58 tx.data) tx.hash sender
      else if action = ufoEventDeclare then snap.isNone
      else false
    else if category = ufoCategorySC && action = ufoEventSetCoinbase then
      match snap with
      | none => true
      | some snap => snap.isCandidate sender && !rest.isEmpty && minSCSetCoinbaseValue ≤ tx.value &&
          tx.recipient.isNone
    else false
  | _, _ => false

namespace TxResults

variable {config : AlienConfig} {chain : ChainReader} {number : UInt64} {snap : Option Snapshot}
  {txDataInfo : List Text} {tx : Transaction} {txSender : Address} {results : TxResults}

theorem processEventProposal_panicsIff :
    PanicsIff (processEventProposal config txDataInfo tx txSender snap results)
      (snap = none ∧ asksForRent config txDataInfo tx.hash txSender = true) := by
  obtain ⟨built, hbuilt⟩ := readFields_isOk posEventProposal txDataInfo proposalField
    (.fresh config tx.hash txSender)
  unfold processEventProposal asksForRent
  rw [hbuilt]
  split_ifs with hlen
  · exact (ok _).congr (by simp [hlen])
  refine .bind_of_ok rfl ?_
  have hlen : decide (txDataInfo.length > posEventProposal + 2) = true := decide_eq_true (by omega)
  rw [hlen]
  cases built with
  | none => exact (ok _).congr (by simp)
  | some proposal =>
    dsimp only
    split_ifs with hrent
    · cases snap with
      | none => exact (bind_of_panic rfl).congr (by simp [hrent])
      | some snap => exact (bind_of_ok rfl (.ok _)).congr (by simp)
    · exact (ok _).congr (by simp [hrent])

theorem processEventDeclare_returns :
    PanicsIff (processEventDeclare txDataInfo txSender results) False := by
  obtain ⟨built, hbuilt⟩ := readFields_isOk posEventDeclare txDataInfo declareField
    ⟨0, txSender, true⟩
  unfold processEventDeclare
  split_ifs
  · exact .ok _
  refine .bind_of_ok hbuilt ?_
  cases built <;> exact .ok _

theorem processEventConfirm_returns :
    PanicsIff (processEventConfirm config chain txDataInfo number tx txSender results) False := by
  unfold processEventConfirm
  split_ifs with hlen
  · exact .ok _
  obtain ⟨text, htext⟩ := orPanic_getElem (not_le.mp hlen)
  refine .bind_of_ok htext ?_
  cases bigUnmarshalText text <;> exact .ok _

theorem processSCConfirm_returns : PanicsIff (processSCConfirm txDataInfo tx txSender results) False := by
  unfold processSCConfirm
  split_ifs with hlen
  · exact .ok _
  have hind : ∀ i ≤ 5, ∃ text, orPanic txDataInfo[ufoMinSplitLen + i]? = .ok text :=
    fun i hi ↦ orPanic_getElem (by omega)
  obtain ⟨hashText, hhash⟩ := hind 1 (by norm_num)
  obtain ⟨numberText, hnum⟩ := hind 2 (by norm_num)
  obtain ⟨timeText, htime⟩ := hind 3 (by norm_num)
  obtain ⟨loopInfo, hloop⟩ := hind 4 (by norm_num)
  obtain ⟨chargingInfo, hcharging⟩ := hind 5 (by norm_num)
  refine .bind_of_ok hnum (.bind_of_ok htime ?_)
  split
  · exact .bind_of_ok hloop (.bind_of_ok hhash (.bind_of_ok hcharging (.ok _)))
  · exact .ok _

theorem processSCSetCoinbase_panicsIff :
    PanicsIff (processSCSetCoinbase snap txDataInfo tx txSender results)
      (∀ s, snap = some s → s.isCandidate txSender = true ∧ ufoMinSplitLen + 1 < txDataInfo.length ∧
        minSCSetCoinbaseValue ≤ tx.value ∧ tx.recipient = none) := by
  cases snap with
  | none => exact (bind_of_panic rfl).congr (by simp)
  | some s =>
    refine .bind_of_ok rfl ?_
    split_ifs with hset
    · obtain ⟨text, htext⟩ := orPanic_getElem hset.2.1
      refine .bind_of_ok htext ?_
      cases hto : tx.recipient with
      | none => exact (bind_of_panic rfl).congr (by simp [hset])
      | some recipient => exact (bind_of_ok rfl (.ok _)).congr (by simp)
    refine (ok _).congr ?_
    simp only [Option.some.injEq, forall_eq']
    tauto

theorem processEventVote_panicsIff :
    PanicsIff (processEventVote tx txSender results) (tx.recipient = none) := by
  unfold processEventVote
  cases tx.recipient with
  | none => exact (bind_of_panic rfl).congr (by simp)
  | some recipient => exact (bind_of_ok rfl (.ok _)).congr (by simp)

variable {first version category action : Text} {rest : List Text}

theorem candidateEvent_panicsIff {x : Go TxResults} (hx : PanicsIff x False) :
    PanicsIff (orPanic snap >>= fun s ↦ if s.isCandidate txSender = true then x else pure results)
      (snap = none) := by
  cases snap with
  | none => exact (bind_of_panic rfl).congr (by simp)
  | some s =>
    refine (bind_of_ok (c := False) rfl ?_).congr (by simp)
    split_ifs
    · exact hx
    · exact .ok _

section

variable (htx : tx.sender = some txSender)

include htx

theorem processEvent_panicsIff (hreq : tx.request = some (ufoCategoryEvent, action, rest))
    (hinfo : split 58 tx.data = first :: version :: ufoCategoryEvent :: action :: rest) :
    PanicsIff (processEvent config chain number snap (split 58 tx.data) tx txSender results)
      (crashes config snap results.balances tx = true) := by
  have hlen : ¬ (split 58 tx.data).length ≤ ufoMinSplitLen := by
    rw [hinfo]
    simp [ufoMinSplitLen]
  have haction : orPanic (split 58 tx.data)[posEventVote]? = .ok action := by
    rw [hinfo]
    rfl
  unfold processEvent crashes
  rw [if_neg hlen, htx, hreq]
  refine .bind_of_ok haction ?_
  simp only [if_true]
  split_ifs
  · -- a vote
    cases snap with
    | none => exact (bind_of_panic rfl).congr (by simp)
    | some s =>
      refine .bind_of_ok rfl ?_
      by_cases hbalance : results.balances.getD txSender 0 > s.minVB
      · simp only [hbalance, decide_true, Bool.true_and, isNone_iff_eq_none]
        exact processEventVote_panicsIff
      · simp only [hbalance, decide_false, Bool.false_eq_true, Bool.false_and]
        exact .ok _
  · exact (candidateEvent_panicsIff processEventConfirm_returns).congr isNone_iff_eq_none
  · refine processEventProposal_panicsIff.congr ?_
    rw [Bool.and_eq_true, isNone_iff_eq_none]
  · exact (candidateEvent_panicsIff processEventDeclare_returns).congr isNone_iff_eq_none
  · exact (ok _).congr (by simp)

theorem processSC_panicsIff (hreq : tx.request = some (ufoCategorySC, action, rest))
    (hinfo : split 58 tx.data = first :: version :: ufoCategorySC :: action :: rest) :
    PanicsIff (processSC snap (split 58 tx.data) tx txSender results)
      (crashes config snap results.balances tx = true) := by
  have hlen : ¬ (split 58 tx.data).length ≤ ufoMinSplitLen := by
    rw [hinfo]
    simp [ufoMinSplitLen]
  have haction : orPanic (split 58 tx.data)[posEventConfirm]? = .ok action := by
    rw [hinfo]
    rfl
  have hevent : ufoCategorySC ≠ ufoCategoryEvent := ufoNames_ne.1
  have hcon : ufoEventConfirm ≠ ufoEventSetCoinbase := ufoNames_ne.2.2
  unfold processSC crashes
  rw [if_neg hlen, htx, hreq]
  refine .bind_of_ok haction ?_
  simp only [decide_true, Bool.true_and, decide_eq_true_eq]
  split_ifs with h h' h'
  · exact absurd (h.symm.trans h') hcon
  · exact processSCConfirm_returns.congr (by simp)
  · refine (processSCSetCoinbase_panicsIff.bind_pure).congr ?_
    cases snap with
    | none => simp
    | some s =>
      have hrest : ufoMinSplitLen + 1 < (split 58 tx.data).length ↔ rest ≠ [] := by
        rw [hinfo, ← length_pos_iff]
        simp [ufoMinSplitLen]
      simp only [hrest, Option.some.injEq, forall_eq', Bool.and_eq_true, Bool.not_eq_true',
        isEmpty_eq_false_iff, decide_eq_true_eq, isNone_iff_eq_none, and_assoc]
  · exact (ok _).congr (by simp)

theorem processData_panicsIff : PanicsIff (processData config chain number snap tx txSender results)
      (crashes config snap results.balances tx = true) := by
  obtain ⟨fields, hfld, hinfo⟩ := ufoFields_spec tx.data
  have hcrs : tx.request = none → crashes config snap results.balances tx = false := by
    intro hnone
    rw [crashes, htx, hnone]
  refine .bind_of_ok hfld ?_
  cases fields with
  | none => exact (ok _).congr (by simp [hcrs (by rw [request, hfld])])
  | some txDataInfo =>
    obtain ⟨hspl, first, version, category, rest, hcons⟩ := hinfo txDataInfo rfl
    have hcategory : orPanic txDataInfo[posCategory]? = .ok category := by
      rw [hcons]
      rfl
    refine .bind_of_ok hcategory ?_
    cases rest with
    | nil =>
      have hsh : txDataInfo.length ≤ ufoMinSplitLen := by
        rw [hcons]
        exact le_rfl
      have hnone : tx.request = none := by rw [request, hfld, hcons]
      rw [hcrs hnone]
      unfold processEvent processSC
      split_ifs <;> exact (ok _).congr (by simp)
    | cons action rest =>
      have hreq : tx.request = some (category, action, rest) := by
        rw [request, hfld, hcons]
      have hinfo : split 58 tx.data = first :: version :: category :: action :: rest := hspl ▸ hcons
      rw [hspl]
      split_ifs with hevent hlog hsc
      · subst hevent
        exact (processEvent_panicsIff htx hreq hinfo).bind_pure
      · have hsc : category ≠ ufoCategorySC := hlog ▸ ufoNames_ne.2.1.symm
        refine (ok _).congr ?_
        simp [crashes, htx, hreq, hevent, hsc]
      · subst hsc
        exact processSC_panicsIff htx hreq hinfo
      · refine (ok _).congr ?_
        simp [crashes, htx, hreq, hevent, hsc]

end

theorem processPredecessorVoter_returns (hsnap : snap ≠ none) :
    PanicsIff (processPredecessorVoter tx txSender snap results) False := by
  obtain ⟨s, rfl⟩ := ne_none_iff_exists'.mp hsnap
  unfold processPredecessorVoter
  cases tx.recipient with
  | none => exact .ok _
  | some recipient =>
    split_ifs
    · exact .bind_of_ok rfl (.ok _)
    · exact .ok _

theorem processTx_panicsIff (config : AlienConfig) (chain : ChainReader)
    (hsnap : number > 1 → snap ≠ none) (results : TxResults) (tx : Transaction) :
    PanicsIff (processTx config chain number snap results tx)
      (crashes config snap results.balances tx = true) := by
  unfold processTx
  cases htx : tx.sender with
  | none => exact (ok _).congr (by simp [crashes, htx])
  | some txSender =>
    have hdata : PanicsIff (processData config chain number snap tx txSender results) _ :=
      processData_panicsIff htx
    by_cases hcrs : crashes config snap results.balances tx = true
    · exact (bind_of_panic (hdata.panics hcrs)).congr (by simp [hcrs])
    obtain ⟨⟨results', checkVoters⟩, hok⟩ := hdata.returns hcrs
    refine (bind_of_ok (c := False) hok ?_).congr (by simp [hcrs])
    dsimp only
    split_ifs with hcheck
    · exact processPredecessorVoter_returns (hsnap hcheck.2)
    · exact .ok _

end TxResults

namespace Engine

variable {rt : UInt64 → Runtime} {crypto : Crypto} {chain : ChainReader} {now : ℕ} {header : Header}
  {snap : Option Snapshot} {e e' : Engine}

theorem customTxSnapshot_ne_none
    (h : customTxSnapshot rt crypto chain now header e = (.ok snap, e'))
    (hnum : bigUint64 header.number > 1) : snap ≠ none := by
  unfold customTxSnapshot at h
  rw [if_pos hnum, Call.bind_eq_ok] at h
  obtain ⟨s, _, -, h⟩ := h
  obtain ⟨rfl, -⟩ := Call.pure_eq_ok.mp h
  exact some_ne_none s

theorem processCustomTx_eq {headerExtra : HeaderExtra} {balances : GoMap Address ℤ}
    {txs : List Transaction} {receipts : List Receipt}
    (hsnap : customTxSnapshot rt crypto chain now header e = (.ok snap, e')) :
    processCustomTx rt crypto chain now headerExtra header balances txs receipts e =
      (TxResults.processTxs e'.config.toAlienConfig chain (bigUint64 header.number) snap
        ⟨headerExtra, balances, ∅⟩ txs >>= fun results ↦ .ok ⟨results.headerExtra,
          refundReceipts results.refundHash receipts, results.balances⟩, e') := by
  unfold processCustomTx
  rw [Call.bind_of_ok hsnap]
  exact Call.lift_bind_pure

/-- `processCustomTx` returns exactly where no transaction goes through a nil pointer, in
the balances that the transactions before it leave, and panics otherwise. -/
theorem processCustomTx_returns_iff (headerExtra : HeaderExtra) (balances : GoMap Address ℤ)
    (txs : List Transaction) (receipts : List Receipt)
    (hsnap : customTxSnapshot rt crypto chain now header e = (.ok snap, e')) :
    let crash := ∃ done tx todo results, txs = done ++ tx :: todo ∧
      TxResults.processTxs e'.config.toAlienConfig chain (bigUint64 header.number) snap
        ⟨headerExtra, balances, ∅⟩ done = .ok results ∧
      crashes e'.config.toAlienConfig snap results.balances tx = true
    ((∃ result, processCustomTx rt crypto chain now headerExtra header balances txs receipts e =
        (.ok result, e')) ↔ ¬ crash) ∧
      ((processCustomTx rt crypto chain now headerExtra header balances txs receipts e).1 =
        .error .panic ↔ crash) := by
  intro crash
  have hloop : Outcome.PanicsIff (TxResults.processTxs e'.config.toAlienConfig chain
      (bigUint64 header.number) snap ⟨headerExtra, balances, ∅⟩ txs) crash :=
    .foldlM (TxResults.processTx_panicsIff _ chain (customTxSnapshot_ne_none hsnap)) txs _
  rw [processCustomTx_eq hsnap]
  by_cases hcrs : crash
  · rw [hloop.panics hcrs]
    refine ⟨⟨?_, fun h ↦ absurd hcrs h⟩, ⟨fun _ ↦ hcrs, fun _ ↦ rfl⟩⟩
    rintro ⟨_, h⟩
    cases h
  obtain ⟨results, hresults⟩ := hloop.returns hcrs
  rw [hresults]
  exact ⟨⟨fun _ ↦ hcrs, fun _ ↦ ⟨_, rfl⟩⟩, ⟨fun h ↦ (by cases h), fun h ↦ absurd h hcrs⟩⟩

def customTxChain : ChainReader :=
  .ofHeaders .byNumber Config.small.toAlienConfig (fun _ _ ↦ goPanic) (.ofExtra 0 .zero) Header.ofExtra_zero_number
    [.ofExtra 1 .zero]

def customTxHeader (number : ℤ) : Header :=
  { Header.ofExtra number .zero with parentHash := .ofInt 256 (number - 1) }

def processBlock (number : ℤ) (txs : List Transaction) : Go CustomTxResult × Engine :=
  processCustomTx (fun _ ↦ .inOrder) .byNumber customTxChain 0 .zero (customTxHeader number)
    ((∅ : GoMap Address ℤ).insert 5 100) txs [] (.new Config.small.toAlienConfig ∅)

def voteTx (recipient : Option Address) : Transaction :=
  ⟨some 5, recipient, 0, 1, ofString "ufo:1:event:vote", 7⟩

theorem processCustomTx_returns_vote :
    ∃ result e', processBlock 2 [voteTx (some 6)] = (.ok result, e') := by
  have hok : (customTxSnapshot (fun _ ↦ .inOrder) .byNumber customTxChain 0 (customTxHeader 2)
      (.new Config.small.toAlienConfig ∅)).1.isOk = true := by decide +kernel
  obtain ⟨snap, hsnap⟩ := Outcome.exists_of_isOk hok
  obtain ⟨e', hsnap⟩ := Call.exists_of_fst hsnap
  have hreq : (voteTx (some 6)).request = some (ufoCategoryEvent, ufoEventVote, []) := by
    decide +kernel
  obtain ⟨s, rfl⟩ := ne_none_iff_exists'.mp
    (customTxSnapshot_ne_none hsnap (by decide +kernel))
  have hcrs : ∀ balances, crashes e'.config.toAlienConfig (some s) balances (voteTx (some 6)) = false :=
    fun balances ↦ by
      rw [crashes, hreq]
      simp [voteTx]
  have hreturns := (processCustomTx_returns_iff .zero ((∅ : GoMap Address ℤ).insert 5 100)
    [voteTx (some 6)] [] hsnap).1
  obtain ⟨result, hres⟩ := hreturns.mpr (by
    rintro ⟨done, tx, todo, results, htxs, -, h⟩
    have hmem : tx ∈ [voteTx (some 6)] := htxs ▸ List.mem_append_right done List.mem_cons_self
    rw [List.mem_singleton.mp hmem, hcrs] at h
    cases h)
  exact ⟨result, e', hres⟩

theorem vote_without_recipient_panics :
    (processBlock 2 [voteTx none]).1 = .error .panic ∧
    (processBlock 1 [voteTx (some 6)]).1 = .error .panic := by
  decide +kernel

end Engine

end BjutEth.Alien
