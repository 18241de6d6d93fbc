import BjutEth.Alien.Stages

namespace BjutEth.Alien

open List

def Config.small : Config where
  period := 3
  epoch := 100
  maxSignerCount := 3
  minVoterBalance := 0
  genesisTimestamp := 0
  selfVoteSigners := [1, 2, 3]
  sideChain := false
  trantorBlock := none
  maxSignerCount_ne := by decide

def smallStart : Snapshot := newSnapshot .small 0 0 [⟨1, 1, 5⟩] 10

def Crypto.byNumber : Crypto where
  rlpHash header := .ofInt 256 header.number
  recover _ _ := some 0
  uncleHash := 0

def Crypto.signing (signer : ℕ → Address) : Crypto where
  rlpHash header := .ofInt 256 header.number
  recover hash _ := some (signer hash.toNat)
  uncleHash := 0

def Proposal.plain (hash : Hash) (proposer : Address) : Proposal where
  hash := hash
  receivedNumber := 0
  currentDeposit := 100
  validationLoopCnt := 10
  proposalType := 7
  proposer := proposer
  targetAddress := 0
  minerRewardPerThousand := 0
  scHash := 0
  scBlockCountPerPeriod := 0
  scBlockRewardPerPeriod := 0
  declares := []
  minVoterBalance := 0
  proposalDeposit := 0
  scRentFee := 0
  scRentRate := 0
  scRentLength := 0

namespace Snapshot

open Outcome

def applyAll (rt : UInt64 → Runtime) (crypto : Crypto) (cfg : Config) (s : Snapshot)
    (batches : List (List Header)) : Go Snapshot :=
  batches.foldlM (fun s headers ↦ s.apply rt crypto cfg headers) s

/-- `t` is a point of `apply` on `s`: between two sub-updates of one header, after
the headers before it. -/
def PointOf (rt : UInt64 → Runtime) (crypto : Crypto) (cfg : Config) (s : Snapshot)
    (headers : List Header) (t : Snapshot) : Prop :=
  ∃ done header todo snap extra k, headers = done ++ header :: todo ∧
    s.copy.applyHeaders rt crypto cfg done = .ok snap ∧ decodeExtra header = .ok extra ∧
    ((subUpdates (rt (bigUint64 header.number)) crypto cfg header extra).take k).foldlM
      (fun s update ↦ update s) snap = .ok t

variable {rt : UInt64 → Runtime} {crypto : Crypto} {cfg : Config} {s t : Snapshot}
  {headers : List Header}

variable {header : Header} {P : Snapshot → Prop} {batches : List (List Header)}

theorem applyHeader_eq_ok {rt : Runtime} (h : s.applyHeader rt crypto cfg header = .ok t) :
    ∃ coinbase extra, crypto.ecrecover header = .ok coinbase ∧
      (coinbase = header.coinbase ∨ header.number = bugFixBlockNumber) ∧
      decodeExtra header = .ok extra ∧
      (subUpdates rt crypto cfg header extra).foldlM (fun s update ↦ update s) s = .ok t := by
  obtain ⟨coinbase, hc, h⟩ := bind_eq_ok.mp h
  split at h
  · cases h
  next hauth =>
  obtain ⟨extra, he, h⟩ := bind_eq_ok.mp h
  refine ⟨coinbase, extra, hc, ?_, he, h⟩
  simp only [decide_not, Bool.and_eq_true, Bool.not_eq_true', decide_eq_false_iff_not] at hauth
  tauto

theorem apply_eq_ok (h : s.apply rt crypto cfg headers = .ok t) :
    headers = [] ∧ t = s ∨
      ∃ last snap, headers.getLast? = some last ∧ isContiguous s.number headers = true ∧
        s.copy.applyHeaders rt crypto cfg headers = .ok snap ∧
        t = snap.advance headers.length (crypto.rlpHash last) ∧ t.verifyTallyCnt = .ok () := by
  unfold apply at h
  split at h
  · next hlast =>
    cases h
    exact .inl ⟨getLast?_eq_none_iff.mp hlast, rfl⟩
  next last hlast =>
  split at h
  · cases h
  next hcont =>
  obtain ⟨snap, hsnap, h⟩ := bind_eq_ok.mp h
  obtain ⟨_, hcnt, h⟩ := bind_eq_ok.mp h
  cases h
  exact .inr ⟨last, snap, hlast, by simpa using hcont, hsnap, rfl, hcnt⟩

theorem applyHeader_ensures {rt : Runtime}
    (hstage : ∀ extra, decodeExtra header = .ok extra → ∀ update ∈ subUpdates rt crypto cfg header extra, ∀ s, P s → Ensures (update s) P)
    (hs : P s) : Ensures (s.applyHeader rt crypto cfg header) P := by
  intro t ht
  obtain ⟨-, extra, -, -, he, ht⟩ := applyHeader_eq_ok ht
  exact Ensures.foldlM _ hs (fun s hs update hu ↦ hstage extra he update hu s hs) t ht

/-- The invariant rule: what `copy` and every header keep holds of all that `apply`
returns. -/
theorem apply_ensures (hcopy : P s → P s.copy)
    (hhd : ∀ header ∈ headers, ∀ s, P s → Ensures (s.applyHeader (rt (bigUint64 header.number)) crypto cfg header) P)
    (hdone : ∀ s count hash, P s → P (s.advance count hash)) (hs : P s) :
    Ensures (s.apply rt crypto cfg headers) P := by
  intro t ht
  obtain ⟨-, rfl⟩ | ⟨last, snap, -, -, hsnap, rfl, -⟩ := apply_eq_ok ht
  · exact hs
  have hsnap := Ensures.foldlM headers (hcopy hs)
    (fun s hs header hh ↦ hhd header hh s hs) snap hsnap
  exact hdone snap _ _ hsnap

theorem applyHeader_fixedPart {rt : Runtime} (h : s.applyHeader rt crypto cfg header = .ok t) :
    t.fixedPart = s.fixedPart :=
  applyHeader_ensures (P := fun t ↦ t.fixedPart = s.fixedPart)
    (fun _ _ update hu u hs v hv ↦ (subUpdates_fixedPart update hu u v hv).trans hs) rfl t h

theorem applyHeaders_fixedPart (h : s.applyHeaders rt crypto cfg headers = .ok t) :
    t.fixedPart = s.fixedPart :=
  foldlM_keeps _ fixedPart (fun _ _ _ ↦ applyHeader_fixedPart) headers h

theorem applyHeaders_append (rt : UInt64 → Runtime) (crypto : Crypto) (cfg : Config) (s : Snapshot)
    (before after : List Header) : s.applyHeaders rt crypto cfg (before ++ after) =
      s.applyHeaders rt crypto cfg before >>= fun t ↦ t.applyHeaders rt crypto cfg after :=
  foldlM_append

theorem apply_of_applyHeaders {last : Header} {snap : Snapshot}
    (hlast : headers.getLast? = some last) (hcont : isContiguous s.number headers = true)
    (hsnap : s.copy.applyHeaders rt crypto cfg headers = .ok snap)
    (hcnt : (snap.advance headers.length (crypto.rlpHash last)).verifyTallyCnt = .ok ()) :
    s.apply rt crypto cfg headers = .ok (snap.advance headers.length (crypto.rlpHash last)) := by
  unfold apply
  simp only [hlast, hcont, hsnap]
  exact bind_eq_ok.mpr ⟨snap, rfl, bind_eq_ok.mpr ⟨(), hcnt, rfl⟩⟩

theorem apply_concat {extra : HeaderExtra} {u : Snapshot}
    (hsgn : crypto.ecrecover header = .ok header.coinbase) (he : decodeExtra header = .ok extra)
    (hcont : isContiguous s.number (headers ++ [header]) = true)
    (hbef : s.copy.applyHeaders rt crypto cfg headers = .ok u)
    (hlast : (subUpdates (rt (bigUint64 header.number)) crypto cfg header extra).foldlM (fun s update ↦ update s) u = .ok t)
    (hcnt : (t.advance (headers ++ [header]).length (crypto.rlpHash header)).verifyTallyCnt = .ok ()) :
    s.apply rt crypto cfg (headers ++ [header]) =
      .ok (t.advance (headers ++ [header]).length (crypto.rlpHash header)) := by
  have hstep : u.applyHeader (rt (bigUint64 header.number)) crypto cfg header = .ok t := by
    unfold applyHeader
    rw [hsgn, he, ← hlast]
    simp [bind, Except.bind]
  refine apply_of_applyHeaders getLast?_concat hcont ?_ hcnt
  rw [applyHeaders_append]
  exact bind_eq_ok.mpr ⟨u, hbef, bind_eq_ok.mpr ⟨t, hstep, rfl⟩⟩

theorem isContiguous_append (number : UInt64) (before after : List Header) :
    isContiguous number (before ++ after) =
      (isContiguous number before && isContiguous (number + .ofNat before.length) after) := by
  induction before generalizing number with
  | nil => simp [isContiguous]
  | cons header before ih =>
    have hnum : number + 1 + .ofNat before.length = number + .ofNat (before.length + 1) := by
      rw [UInt64.ofNat_add, add_assoc, add_comm 1]
      rfl
    rw [cons_append, isContiguous, isContiguous, ih, length_cons, hnum, Bool.and_assoc]

theorem applyAll_cons {u : Snapshot} (h : s.apply rt crypto cfg headers = .ok t)
    (hrest : t.applyAll rt crypto cfg batches = .ok u) :
    s.applyAll rt crypto cfg (headers :: batches) = .ok u := by
  rw [applyAll, foldlM_cons, h]
  exact hrest

theorem number_newSnapshot (cfg : Config) (now : UInt64) (hash : Hash) (votes : List Vote)
    (lcrs : UInt64) : (newSnapshot cfg now hash votes lcrs).number = 0 :=
  foldl_keeps addGenesisVote number (fun _ _ ↦ rfl) votes _

theorem applyAll_contiguous (h : s.applyAll rt crypto cfg batches = .ok t) :
    isContiguous s.number batches.flatten = true ∧
      t.number = s.number + .ofNat batches.flatten.length := by
  induction batches generalizing s with
  | nil =>
    cases h
    exact ⟨rfl, by simp⟩
  | cons headers batches ih =>
    obtain ⟨u, hu, h⟩ := bind_eq_ok.mp h
    obtain ⟨hcont, hnum⟩ := ih h
    obtain ⟨rfl, rfl⟩ | ⟨last, snap, -, hcont', hsnap, rfl, -⟩ := apply_eq_ok hu
    · exact ⟨hcont, hnum⟩
    have hfix : snap.number = s.number :=
      congrArg (·.2.1) (applyHeaders_fixedPart hsnap)
    have hst : (snap.advance headers.length (crypto.rlpHash last)).number =
        s.number + .ofNat headers.length := by
      rw [advance, hfix]
    rw [hst] at hcont hnum
    rw [flatten_cons, isContiguous_append, hcont', hcont, length_append, UInt64.ofNat_add,
      ← add_assoc]
    exact ⟨rfl, hnum⟩

section Part

variable {γ : Type} (part : Snapshot → γ) (step : γ → Header → Go γ)

theorem applyHeaders_part
    (hhd : ∀ header s t, s.applyHeader (rt (bigUint64 header.number)) crypto cfg header = .ok t →
      step (part s) header = .ok (part t)) (h : s.applyHeaders rt crypto cfg headers = .ok t) :
    headers.foldlM step (part s) = .ok (part t) := by
  induction headers generalizing s with
  | nil =>
    cases h
    rfl
  | cons header headers ih =>
    obtain ⟨u, hu, h⟩ := bind_eq_ok.mp h
    rw [foldlM_cons, hhd header s u hu]
    exact ih h

theorem apply_part (hcopy : ∀ s, part s.copy = part s)
    (hadvance : ∀ s count hash, part (s.advance count hash) = part s)
    (hhd : ∀ header s t, s.applyHeader (rt (bigUint64 header.number)) crypto cfg header = .ok t →
      step (part s) header = .ok (part t)) (h : s.apply rt crypto cfg headers = .ok t) :
    headers.foldlM step (part s) = .ok (part t) := by
  obtain ⟨rfl, rfl⟩ | ⟨last, snap, -, -, hsnap, rfl, -⟩ := apply_eq_ok h
  · rfl
  rw [← hcopy s, hadvance]
  exact applyHeaders_part part step hhd hsnap

theorem applyAll_part (hcopy : ∀ s, part s.copy = part s)
    (hadvance : ∀ s count hash, part (s.advance count hash) = part s)
    (hhd : ∀ header s t, s.applyHeader (rt (bigUint64 header.number)) crypto cfg header = .ok t → step (part s) header = .ok (part t))
    (h : s.applyAll rt crypto cfg batches = .ok t) : batches.flatten.foldlM step (part s) = .ok (part t) := by
  induction batches generalizing s with
  | nil =>
    cases h
    rfl
  | cons headers batches ih =>
    obtain ⟨u, hu, h⟩ := bind_eq_ok.mp h
    rw [flatten_cons, foldlM_append]
    exact bind_eq_ok.mpr ⟨part u, apply_part part step hcopy hadvance hhd hu, ih h⟩

end Part

theorem number_of_isContiguous {number : UInt64} {before after : List Header}
    (h : isContiguous number (before ++ header :: after) = true) :
    bigUint64 header.number = number + .ofNat (before.length + 1) := by
  rw [isContiguous_append, Bool.and_eq_true, isContiguous, Bool.and_eq_true, beq_iff_eq] at h
  rw [h.2.1, UInt64.ofNat_add, add_assoc]
  rfl

end Snapshot

end BjutEth.Alien
