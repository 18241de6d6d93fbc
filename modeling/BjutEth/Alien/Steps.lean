import BjutEth.Alien.Runs

namespace BjutEth.Alien

open Outcome List

/-- One header of a run, with the snapshots around what it does to proposals. -/
structure HeaderStep where
  header : Header
  extra : HeaderExtra
  start : Snapshot
  before : Snapshot
  decided : Snapshot
  result : Snapshot
  after : Snapshot

namespace HeaderStep

def number (x : HeaderStep) : UInt64 := bigUint64 x.header.number

def stored (x : HeaderStep) : Snapshot :=
  x.before.updateSnapshotByProposals x.extra.currentBlockProposals x.header.number

end HeaderStep

namespace Snapshot

structure IsStep (rt : Runtime) (crypto : Crypto) (cfg : Config) (x : HeaderStep) : Prop where
  extra : decodeExtra x.header = .ok x.extra
  before : ((subUpdates rt crypto cfg x.header x.extra).take 5).foldlM (fun s update ↦ update s)
    x.start = .ok x.before
  decided : (((subUpdates rt crypto cfg x.header x.extra).drop 6).take 5).foldlM
    (fun s update ↦ update s) x.stored = .ok x.decided
  result : x.decided.calculateProposalResult rt cfg x.header.number = .ok x.result
  after : ((subUpdates rt crypto cfg x.header x.extra).drop 12).foldlM (fun s update ↦ update s)
    x.result = .ok x.after

/-- The headers of a run, the last one first, however they are cut into batches. -/
inductive Steps (rt : UInt64 → Runtime) (crypto : Crypto) (cfg : Config) (s : Snapshot) :
    List HeaderStep → Snapshot → Prop
  | nil : Steps rt crypto cfg s [] s
  | header {steps : List HeaderStep} {x : HeaderStep} :
    Steps rt crypto cfg s steps x.start → x.number = .ofNat (steps.length + 1) →
    IsStep (rt x.number) crypto cfg x → Steps rt crypto cfg s (x :: steps) x.after
  | copy {steps : List HeaderStep} {t : Snapshot} :
    Steps rt crypto cfg s steps t → Steps rt crypto cfg s steps t.copy
  | advance {steps : List HeaderStep} {t : Snapshot} (count : ℕ) (hash : Hash) :
    Steps rt crypto cfg s steps t → Steps rt crypto cfg s steps (t.advance count hash)

variable {crypto : Crypto} {cfg : Config} {s t u : Snapshot} {header : Header}

theorem exists_isStep {rt : Runtime} (h : s.applyHeader rt crypto cfg header = .ok t) :
    ∃ x : HeaderStep, x.header = header ∧ x.start = s ∧ x.after = t ∧ IsStep rt crypto cfg x := by
  obtain ⟨-, extra, -, -, he, h⟩ := applyHeader_eq_ok h
  have hspl : subUpdates rt crypto cfg header extra =
      (subUpdates rt crypto cfg header extra).take 5 ++
        ((fun s ↦ .ok (s.updateSnapshotByProposals extra.currentBlockProposals header.number)) ::
          (((subUpdates rt crypto cfg header extra).drop 6).take 5 ++
            ((fun s ↦ s.calculateProposalResult rt cfg header.number) ::
              (subUpdates rt crypto cfg header extra).drop 12))) := rfl
  rw [hspl, foldlM_append] at h
  obtain ⟨before, hbef, h1⟩ := bind_eq_ok.mp h
  obtain ⟨stored, hstd, h2⟩ := bind_eq_ok.mp h1
  cases hstd
  rw [foldlM_append] at h2
  obtain ⟨decided, hdec, h3⟩ := bind_eq_ok.mp h2
  obtain ⟨result, hres, haft⟩ := bind_eq_ok.mp h3
  exact ⟨⟨header, extra, s, before, decided, result, t⟩, rfl, rfl, rfl,
    ⟨he, hbef, hdec, hres, haft⟩⟩

def stepOf (rt : Runtime) (crypto : Crypto) (cfg : Config) (s : Snapshot) (header : Header) :
    Go HeaderStep := do
  let after ← s.applyHeader rt crypto cfg header
  let extra ← decodeExtra header
  let before ← ((subUpdates rt crypto cfg header extra).take 5).foldlM (fun s update ↦ update s) s
  let decided ← (((subUpdates rt crypto cfg header extra).drop 6).take 5).foldlM
    (fun s update ↦ update s) (before.updateSnapshotByProposals extra.currentBlockProposals header.number)
  let result ← decided.calculateProposalResult rt cfg header.number
  return ⟨header, extra, s, before, decided, result, after⟩

theorem stepOf_of_applyHeader {rt : Runtime} (h : s.applyHeader rt crypto cfg header = .ok t) :
    ∃ x : HeaderStep, s.stepOf rt crypto cfg header = .ok x ∧ x.header = header ∧ x.start = s ∧
      x.after = t ∧ IsStep rt crypto cfg x := by
  obtain ⟨x, rfl, rfl, rfl, hx⟩ := exists_isStep h
  refine ⟨x, ?_, rfl, rfl, rfl, hx⟩
  refine bind_eq_ok.mpr ⟨x.after, h, bind_eq_ok.mpr ⟨x.extra, hx.extra, ?_⟩⟩
  exact bind_eq_ok.mpr ⟨x.before, hx.before, bind_eq_ok.mpr ⟨x.decided, hx.decided,
    bind_eq_ok.mpr ⟨x.result, hx.result, rfl⟩⟩⟩

def traceHeaders (rt : UInt64 → Runtime) (crypto : Crypto) (cfg : Config) :
    Snapshot → List Header → Go (List HeaderStep)
  | _, [] => .ok []
  | s, header :: headers => do
    let x ← s.stepOf (rt (bigUint64 header.number)) crypto cfg header
    return x :: (← traceHeaders rt crypto cfg x.after headers)

def trace (rt : UInt64 → Runtime) (crypto : Crypto) (cfg : Config) :
    Snapshot → List (List Header) → Go (List HeaderStep)
  | _, [] => .ok []
  | s, headers :: batches => do
    let steps ← traceHeaders rt crypto cfg s.copy headers
    return steps ++ (← trace rt crypto cfg (← s.apply rt crypto cfg headers) batches)

variable {rt : UInt64 → Runtime} {steps : List HeaderStep} {headers : List Header}

theorem Steps.traceHeaders (hs : Steps rt crypto cfg s steps t)
    (hcont : isContiguous (.ofNat steps.length) headers = true)
    (h : t.applyHeaders rt crypto cfg headers = .ok u) :
    ∃ new, t.traceHeaders rt crypto cfg headers = .ok new ∧ new.map (·.header) = headers ∧
      Steps rt crypto cfg s (new.reverse ++ steps) u := by
  induction headers generalizing steps t with
  | nil =>
    cases h
    exact ⟨[], rfl, rfl, hs⟩
  | cons header headers ih =>
    rw [isContiguous, Bool.and_eq_true, beq_iff_eq] at hcont
    obtain ⟨v, hv, h⟩ := bind_eq_ok.mp h
    obtain ⟨x, htrace, rfl, rfl, rfl, hx⟩ := stepOf_of_applyHeader hv
    have hnum : x.number = .ofNat (steps.length + 1) := by
      rw [UInt64.ofNat_add]
      exact hcont.1
    have hcont' : isContiguous (.ofNat (x :: steps).length) headers = true := by
      rw [length_cons, UInt64.ofNat_add]
      exact hcont.2
    obtain ⟨new, hnew, hmap, hsts⟩ := ih (hs.header hnum hx) hcont' h
    refine ⟨x :: new, bind_eq_ok.mpr ⟨x, htrace, bind_eq_ok.mpr ⟨new, hnew, rfl⟩⟩, ?_, ?_⟩
    · rw [map_cons, hmap]
    rw [reverse_cons, List.append_assoc]
    exact hsts

theorem Steps.trace {batches : List (List Header)} (hs : Steps rt crypto cfg s steps t)
    (hnum : t.number = .ofNat steps.length) (h : t.applyAll rt crypto cfg batches = .ok u) :
    ∃ new, t.trace rt crypto cfg batches = .ok new ∧ new.map (·.header) = batches.flatten ∧
      Steps rt crypto cfg s (new.reverse ++ steps) u := by
  induction batches generalizing steps t with
  | nil =>
    cases h
    exact ⟨[], rfl, rfl, hs⟩
  | cons headers batches ih =>
    obtain ⟨v, hv, h⟩ := bind_eq_ok.mp h
    obtain ⟨rfl, rfl⟩ | ⟨last, snap, -, hcont, hsnap, rfl, -⟩ := apply_eq_ok hv
    · obtain ⟨new, hnew, hmap, hsts⟩ := ih hs hnum h
      exact ⟨new, bind_eq_ok.mpr ⟨[], rfl, bind_eq_ok.mpr ⟨v, hv, bind_eq_ok.mpr ⟨new, hnew, rfl⟩⟩⟩,
        hmap, hsts⟩
    rw [hnum] at hcont
    obtain ⟨first, hfst, hmap, hsts⟩ := hs.copy.traceHeaders hcont hsnap
    have hfix : snap.number = t.number := congrArg (·.2.1) (applyHeaders_fixedPart hsnap)
    have hlen : first.length = headers.length := by rw [← hmap, length_map]
    have hnum' : (snap.advance headers.length (crypto.rlpHash last)).number =
        .ofNat (first.reverse ++ steps).length := by
      rw [Snapshot.advance, hfix, hnum, length_append, length_reverse, hlen, add_comm,
        ← UInt64.ofNat_add]
    obtain ⟨new, hnew, hmap', hsts'⟩ := ih (hsts.advance _ _) hnum' h
    refine ⟨first ++ new, ?_, ?_, ?_⟩
    · exact bind_eq_ok.mpr ⟨first, hfst, bind_eq_ok.mpr ⟨_, hv, bind_eq_ok.mpr ⟨new, hnew, rfl⟩⟩⟩
    · rw [map_append, hmap, hmap', flatten_cons]
    rw [reverse_append, List.append_assoc]
    exact hsts'

theorem Steps.split {newer past : List HeaderStep} {y : HeaderStep}
    (h : Steps rt crypto cfg s steps t) (hspl : steps = newer ++ y :: past) :
    Steps rt crypto cfg s past y.start ∧ y.number = .ofNat (past.length + 1) ∧
      IsStep (rt y.number) crypto cfg y := by
  induction h generalizing newer with
  | nil => simp at hspl
  | copy _ ih => exact ih hspl
  | advance _ _ _ ih => exact ih hspl
  | @header steps x hsts hnum hx ih =>
    cases newer with
    | nil =>
      obtain ⟨rfl, rfl⟩ := hspl
      exact ⟨hsts, hnum, hx⟩
    | cons z newer =>
      rw [cons_append, List.cons.injEq] at hspl
      exact ih hspl.2

variable {x : HeaderStep}

theorem IsStep.before_kept {rt : Runtime} {β : Type} (f : Snapshot → β)
    (hque : ∀ s, f s.withoutQueue = f s) (hvs : ∀ s, f s.withoutVotes = f s)
    (hrest : ∀ s confirmations punished,
      f { s with confirmations := confirmations, punished := punished } = f s)
    (hx : IsStep rt crypto cfg x) : f x.before = f x.start := by
  refine Ensures.foldlM (P := fun t ↦ f t = f x.start) _ rfl
    (fun u hu update hmem v hv ↦ Eq.trans ?_ hu) x.before hx.before
  revert update
  simp only [subUpdates, List.take, forall_mem_cons]
  refine ⟨fun hv ↦ ?_, fun hv ↦ ?_, fun hv ↦ ?_, fun hv ↦ ?_, fun hv ↦ ?_, by simp⟩
  · exact kept f (openHeader_frame hv) hque
  · cases hv
    exact hrest u _ u.punished
  · exact kept f (updateSnapshotByVotes_frame hv) hvs
  · exact kept f (updateSnapshotByMPVotes_frame hv).1 hvs
  · cases hv
    exact hrest u u.confirmations _

theorem IsStep.after_kept {rt : Runtime} {β : Type} (f : Snapshot → β)
    (hcandidates : ∀ s, f s.withoutCandidates = f s) (hntc : ∀ s, f s.withoutLocalNotice = f s)
    (hexp : ∀ s, f s.withoutExpired = f s) (hx : IsStep rt crypto cfg x) :
    f x.after = f x.result := by
  refine Ensures.foldlM (P := fun t ↦ f t = f x.result) _ rfl
    (fun u hu update hmem v hv ↦ Eq.trans ?_ hu) x.after hx.after
  revert update
  simp only [subUpdates, List.drop, forall_mem_cons]
  refine ⟨fun hv ↦ ?_, fun hv ↦ ?_, fun hv ↦ ?_, by simp⟩
  · exact kept f (checkCandidates_frame hv) hcandidates
  · exact kept f (updateSnapshotBySCCharging_frame hv) hntc
  cases hv
  exact kept f (updateSnapshotForExpired_frame rt cfg u _) hexp

theorem IsStep.extra_eq {rt : Runtime} (hx : IsStep rt crypto cfg x) :
    extraOf x.header = x.extra := extraOf_eq hx.extra

theorem Steps.extra_eq (h : Steps rt crypto cfg s steps t) (hx : x ∈ steps) :
    extraOf x.header = x.extra := by
  obtain ⟨newer, past, hspl⟩ := append_of_mem hx
  exact (h.split hspl).2.2.extra_eq

end Snapshot

end BjutEth.Alien
