import BjutEth.Alien.Accepted
import BjutEth.Alien.Runs

namespace BjutEth.Alien

open Rlp

theorem goInt_of_lt {x : UInt64} (h : x.toNat < 2 ^ 63) : goInt x = x.toNat := by
  rw [goInt, BitVec.toInt_eq_toNat_of_lt]
  · rfl
  change 2 * x.toNat < _
  omega

theorem goInt_of_le {x : UInt64} (h : 2 ^ 63 ≤ x.toNat) : goInt x < 0 := by
  have hlt := x.toNat_lt
  rw [goInt, BitVec.toInt_eq_toNat_cond, if_neg]
  · omega
  · change ¬ 2 * x.toNat < _
    omega

theorem compareQueues_eq_ok {count : ℕ} {parents currents : List Address} :
    compareQueues count parents currents = .ok () ↔
      count ≤ parents.length ∧ count ≤ currents.length ∧
        parents.take count = currents.take count := by
  induction count generalizing parents currents with
  | zero => simp [compareQueues]
  | succ count ih =>
    match parents, currents with
    | [], _ => exact ⟨fun h ↦ (by cases h), fun h ↦ absurd h.1 (by simp)⟩
    | _ :: _, [] => exact ⟨fun h ↦ (by cases h), fun h ↦ absurd h.2.1 (by simp)⟩
    | parent :: parents, current :: currents =>
      rw [compareQueues]
      by_cases heq : parent = current
      · rw [if_neg (not_not.mpr heq), ih]
        simp [heq]
      · rw [if_pos heq]
        refine ⟨fun h ↦ (by cases h), fun h ↦ absurd (List.cons.inj h.2.2).1 heq⟩

example : compareQueues 2 [1, 2, 3] [1, 2] = .ok () ∧ compareQueues 3 [1, 2, 3] [1, 2] = goPanic := by
  decide +kernel

section Accepted

variable {rt : UInt64 → Runtime} {crypto : Crypto} {chain : ChainReader} {now : ℕ}
  {header parent : Header} {parents : List Header} {cfg : Config} {snap : Snapshot} {signer : Address}
  {parentExtra extra : HeaderExtra} {e e' : Engine}

theorem verifyQueue_eq_ok {rt : Runtime} :
    verifyQueue chain rt cfg header parent snap signer parentExtra extra = .ok () ↔
      (bigUint64 header.number % cfg.maxSignerCount = 0 →
        snap.verifySignerQueue rt cfg extra.signerQueue = .ok ()) ∧
      (bigUint64 header.number % cfg.maxSignerCount ≠ 0 →
        compareQueues (goInt cfg.maxSignerCount).toNat parentExtra.signerQueue extra.signerQueue = .ok () ∧
        ¬ (signer = parent.coinbase ∧
          bigUint64 header.time - bigUint64 parent.time < chain.config.period)) := by
  unfold verifyQueue
  split_ifs with hloop
  · simp [hloop]
  simp only [hloop, ne_eq, not_false_eq_true, IsEmpty.forall_iff, true_and, forall_const,
    Outcome.unit_bind_eq_ok, failIf_eq_ok]

theorem queue_eq_iff {count : UInt64} {queue parentQueue : List Address}
    (hlen : queue.length < 2 ^ 63)
    (hcompare : compareQueues (goInt count).toNat parentQueue queue = .ok ()) :
    queue.length = count.toNat ∧ queue = parentQueue ↔
      count.toNat < 2 ^ 63 ∧ queue.length ≤ count.toNat ∧ parentQueue.length ≤ count.toNat := by
  obtain ⟨hpar, hque, htake⟩ := compareQueues_eq_ok.mp hcompare
  constructor
  · rintro ⟨hcnt, rfl⟩
    omega
  rintro ⟨hcnt, hle, hle'⟩
  rw [goInt_of_lt hcnt, Int.toNat_natCast] at hpar hque htake
  rw [List.take_of_length_le hle, List.take_of_length_le hle'] at htake
  exact ⟨by omega, htake.symm⟩

/-- An accepted header after the first loop carries the elected queue, that of its parent
or a new one, exactly where no signer follows the `MaxSignerCount` ones that are compared. -/
theorem accepted_queue_iff (hmain : chain.config.sideChain = false)
    (hsize : header.extra.length < 2 ^ 63)
    (hnum : e.config.maxSignerCount < bigUint64 header.number)
    (h : Engine.verifyHeader crypto chain rt now header parents e = (.ok (), e')) :
    ∃ parent parentExtra extra, parentOf chain header parents = some parent ∧
      decodeExtra parent = .ok parentExtra ∧ decodeExtra header = .ok extra ∧
      ∃ before snap e1,
        Engine.snapshot rt crypto chain now (bigUint64 header.number - 1) header.parentHash parents []
          defaultLoopCntRecalculateSigners e = (.ok before, e1) ∧
        Engine.snapshot rt crypto chain now (bigUint64 header.number - 1) header.parentHash parents []
          defaultLoopCntRecalculateSigners e1 = (.ok snap, e') ∧
        (extra.signerQueue.length = e.config.maxSignerCount.toNat ∧
            (bigUint64 header.number % e.config.maxSignerCount ≠ 0 →
              extra.signerQueue = parentExtra.signerQueue) ∧
            (bigUint64 header.number % e.config.maxSignerCount = 0 →
              snap.createSignerQueue (rt (bigUint64 header.number)) e'.config = .ok extra.signerQueue) ↔
          bigUint64 header.number % e.config.maxSignerCount = 0 ∨
            e.config.maxSignerCount.toNat < 2 ^ 63 ∧
            extra.signerQueue.length ≤ e.config.maxSignerCount.toNat ∧
            parentExtra.signerQueue.length ≤ e.config.maxSignerCount.toNat) := by
  have hne : bigUint64 header.number ≠ 0 := fun hzero ↦ by
    rw [hzero] at hnum
    exact absurd hnum UInt64.not_lt_zero
  obtain ⟨-, -, before, e1, hbef, hseal⟩ := (Engine.verifyHeader_eq_ok hne).mp h
  obtain ⟨-, snap, signer, hsnap, -, -, hseal⟩ := (Engine.verifySeal_eq_ok hmain).mp hseal
  have hcnt : e'.config.maxSignerCount = e.config.maxSignerCount := by
    have hsame := Engine.snapshot_config (C := fun cfg ↦ cfg.maxSignerCount = e.config.maxSignerCount)
      rt crypto chain now (bigUint64 header.number - 1) header.parentHash parents []
      defaultLoopCntRecalculateSigners (fun _ h ↦ h)
    exact hsame.of_ok (hsame.of_ok rfl hbef) hsnap
  obtain ⟨hloop, -⟩ := verifyMainChainSeal_eq_ok.mp hseal
  rw [hcnt] at hloop
  obtain ⟨parent, parentExtra, extra, -, hpar, hpe, he, hque, -⟩ := verifyLoop_eq_ok.mp (hloop hnum)
  refine ⟨parent, parentExtra, extra, hpar, hpe, he, before, snap, e1, hbef, hsnap, ?_⟩
  obtain ⟨hnew, hold⟩ := verifyQueue_eq_ok.mp hque
  rw [hcnt] at hnew hold
  by_cases hmod : bigUint64 header.number % e.config.maxSignerCount = 0
  · obtain ⟨hcrt, hlength, -⟩ := Snapshot.verifySignerQueue_eq_ok.mp (hnew hmod)
    rw [hcnt] at hlength
    have hlt : e.config.maxSignerCount.toNat < 2 ^ 63 := by
      by_contra hge
      have := goInt_of_le (not_lt.mp hge)
      omega
    rw [goInt_of_lt hlt] at hlength
    simp only [hmod, ne_eq, not_true_eq_false, IsEmpty.forall_iff, forall_const, true_and, true_or,
      iff_true]
    exact ⟨by omega, hcrt⟩
  have hle := length_signerQueue_le he
  simp only [hmod, ne_eq, not_false_eq_true, IsEmpty.forall_iff, forall_const, and_true, false_or]
  exact queue_eq_iff (by omega) (hold hmod).1

end Accepted

def loopHeader (n : ℕ) (queue : List Address) : Header :=
  { Header.ofExtra n { HeaderExtra.zero with signerQueue := queue, signerMissing := [2, 3] } with
    parentHash := .ofInt 256 (n - 1)
    coinbase := 1
    time := 9 * n }

def loopChain (count : ℕ) : ChainReader :=
  .ofHeaders (.signing fun _ ↦ 1) Config.small.toAlienConfig (fun _ _ ↦ goPanic) (.ofExtra 0 .zero) Header.ofExtra_zero_number
    ((List.range count).map fun i ↦ loopHeader (i + 1) [1, 2, 3])

def verifyLoopHeader (n : ℕ) (queue : List Address) : Go Unit × Engine :=
  Engine.verifyHeader (.signing fun _ ↦ 1) (loopChain (n - 1)) (fun _ ↦ .inOrder) 1000
    (loopHeader n queue) [] (.new Config.small.toAlienConfig ∅)

theorem accepted_queue_of_block_four :
    (verifyLoopHeader 4 [1, 2, 3]).1 = .ok () ∧
      (extraOf (loopHeader 4 [1, 2, 3])).signerQueue = (extraOf (loopHeader 3 [1, 2, 3])).signerQueue := by
  have hok : (verifyLoopHeader 4 [1, 2, 3]).1 = .ok () := by decide +kernel
  obtain ⟨e', hrun⟩ := Call.exists_of_fst hok
  obtain ⟨parent, parentExtra, extra, hpar, hpe, he, _, snap, _, -, -, hiff⟩ :=
    accepted_queue_iff rfl (by decide +kernel) (by decide +kernel) hrun
  have hpar' : parentOf (loopChain 3) (loopHeader 4 [1, 2, 3]) [] = some (loopHeader 3 [1, 2, 3]) := by
    decide +kernel
  cases hpar.symm.trans hpar'
  have hlength : (extraOf (loopHeader 4 [1, 2, 3])).signerQueue.length = 3 ∧
      (extraOf (loopHeader 3 [1, 2, 3])).signerQueue.length = 3 := by decide +kernel
  rw [extraOf_eq he, extraOf_eq hpe] at hlength ⊢
  have hcnt : (Engine.new Config.small.toAlienConfig ∅).config.maxSignerCount = 3 := rfl
  rw [hcnt] at hiff
  exact ⟨hok, (hiff.mpr (.inr ⟨by decide, hlength.1.le, hlength.2.le⟩)).2.1 (by decide +kernel)⟩

/-- Block 4 with a fourth signer in its queue is accepted after three accepted blocks. -/
theorem longer_queue_accepted :
    (verifyLoopHeader 1 [1, 2, 3]).1 = .ok () ∧ (verifyLoopHeader 2 [1, 2, 3]).1 = .ok () ∧
    (verifyLoopHeader 3 [1, 2, 3]).1 = .ok () ∧ (verifyLoopHeader 4 [1, 2, 3, 9]).1 = .ok () ∧
    (verifyLoopHeader 4 [1, 2, 3, 9]).2.config.maxSignerCount = 3 ∧
    (extraOf (loopHeader 4 [1, 2, 3, 9])).signerQueue = [1, 2, 3, 9] := by
  decide +kernel

end BjutEth.Alien
