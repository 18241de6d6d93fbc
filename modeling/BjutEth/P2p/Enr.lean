import Mathlib

/-! The node records of discovery: signed key/value pairs with a sequence number. -/

namespace BjutEth.Enr

open List

structure Record (K V S : Type) where
  seq : UInt64 := 0
  signature : Option S := none
  pairs : List (K × V) := []

variable {K V S : Type} [LinearOrder K]

/-- `sort.Search` over sorted pairs. -/
def search (pairs : List (K × V)) (k : K) : ℕ := pairs.findIdx (k ≤ ·.1)

def load (pairs : List (K × V)) (k : K) : Option V :=
  (pairs[search pairs k]?).bind fun p ↦ if p.1 = k then some p.2 else none

def setPair (pairs : List (K × V)) (k : K) (v : V) : List (K × V) :=
  (pairs[search pairs k]?).elim (pairs ++ [(k, v)]) fun p ↦
    if p.1 = k then pairs.set (search pairs k) (p.1, v) else pairs.insertIdx (search pairs k) (k, v)

inductive Op (K V S : Type)
  | set (k : K) (v : V)
  | setSig (sig : Option S)

namespace Record

def invalidate (r : Record K V S) : Record K V S :=
  { r with seq := if r.signature.isNone then r.seq + 1 else r.seq, signature := none }

def set (r : Record K V S) (k : K) (v : V) : Record K V S := { r.invalidate with pairs := setPair r.pairs k v }

variable (admits : Record K V S → Option S → Bool)

/-- What the identity scheme and the size limit admit is a parameter. -/
def setSig (r : Record K V S) (sig : Option S) : Record K V S :=
  if admits r sig then { r with signature := sig } else r

def step (r : Record K V S) : Op K V S → Record K V S
  | .set k v => r.set k v
  | .setSig sig => r.setSig admits sig

def run (r : Record K V S) (ops : List (Op K V S)) : Record K V S := ops.foldl (step admits) r

def counts (r : Record K V S) : Op K V S → Bool
  | .set _ _ => r.signature.isNone
  | .setSig _ => false

/-- Some `Set` of the calls finds the record unsigned. -/
def raises (r : Record K V S) : List (Op K V S) → Bool
  | [] => false
  | op :: ops => r.counts op || raises (r.step admits op) ops

end Record

/-- The value last set for each key. -/
def lastSet (values : K → Option V) : List (Op K V S) → K → Option V
  | [] => values
  | .set k v :: ops => lastSet (Function.update values k (some v)) ops
  | .setSig _ :: ops => lastSet values ops

variable {l : List (K × V)} {k : K} {v : V} {p : K × V}

theorem search_cons : search (p :: l) k = if k ≤ p.1 then 0 else search l k + 1 := by
  simp [search, findIdx_cons, Bool.cond_eq_ite]

theorem load_cons : load (p :: l) k =
    if k ≤ p.1 then (if p.1 = k then some p.2 else none) else load l k := by
  rw [load, search_cons]
  split_ifs <;> simp_all [load]

theorem setPair_cons : setPair (p :: l) k v =
    if k ≤ p.1 then (if p.1 = k then (p.1, v) :: l else (k, v) :: p :: l) else p :: setPair l k v := by
  rw [setPair, search_cons]
  split_ifs with hk hp
  · simp [hp]
  · simp [hp]
  rw [setPair, getElem?_cons_succ]
  cases l[search l k]? with
  | none => rfl
  | some q => simp [apply_ite (p :: ·)]

theorem load_setPair (l : List (K × V)) (k : K) (v : V) :
    load (setPair l k v) = Function.update (load l) k (some v) := by
  funext a
  rw [Function.update_apply]
  induction l with
  | nil =>
    show load [(k, v)] a = _
    rw [load_cons]
    split_ifs <;> first | rfl | (exfalso; order)
  | cons p l ih =>
    rw [setPair_cons]
    split_ifs with hk hp <;> simp only [load_cons, ih] <;> split_ifs <;> first | rfl | (exfalso; order)

theorem mem_setPair (h : p ∈ setPair l k v) : p = (k, v) ∨ p ∈ l := by
  induction l with
  | nil => exact .inl (mem_singleton.mp h)
  | cons q l ih =>
    rw [setPair_cons] at h
    split_ifs at h with hk hq
    · exact (mem_cons.mp h).imp (fun h ↦ hq ▸ h) (mem_cons_of_mem q)
    · exact mem_cons.mp h
    · rcases mem_cons.mp h with rfl | h
      · exact .inr mem_cons_self
      · exact (ih h).imp_right (mem_cons_of_mem q)

theorem sorted_setPair (h : l.Pairwise (·.1 < ·.1)) (k : K) (v : V) : (setPair l k v).Pairwise (·.1 < ·.1) := by
  induction l with
  | nil => exact pairwise_singleton ..
  | cons p l ih =>
    obtain ⟨hp, hl⟩ := pairwise_cons.mp h
    rw [setPair_cons]
    split_ifs with hk hkp
    · exact pairwise_cons.mpr ⟨hp, hl⟩
    · have hlt : k < p.1 := lt_of_le_of_ne hk (Ne.symm hkp)
      exact pairwise_cons.mpr ⟨forall_mem_cons.mpr ⟨hlt, fun q hq ↦ hlt.trans (hp q hq)⟩, h⟩
    refine pairwise_cons.mpr ⟨fun q hq ↦ ?_, ih hl⟩
    rcases mem_setPair hq with rfl | hq
    · exact not_le.mp hk
    · exact hp q hq

namespace Record

variable {admits : Record K V S → Option S → Bool} {r : Record K V S}

omit [LinearOrder K] in
theorem setSig_eq (sig : Option S) : ∃ signature, r.setSig admits sig = { r with signature } := by
  unfold setSig
  split_ifs
  · exact ⟨sig, rfl⟩
  · exact ⟨r.signature, rfl⟩

theorem run_pairs (ops : List (Op K V S)) (h : r.pairs.Pairwise (·.1 < ·.1)) :
    (r.run admits ops).pairs.Pairwise (·.1 < ·.1) ∧ load (r.run admits ops).pairs = lastSet (load r.pairs) ops := by
  induction ops generalizing r with
  | nil => exact ⟨h, rfl⟩
  | cons op ops ih =>
    cases op with
    | set k v =>
      have hih := ih (r := r.set k v) (sorted_setPair h k v)
      exact ⟨hih.1, hih.2.trans (congrArg (lastSet · ops) (load_setPair r.pairs k v))⟩
    | setSig sig =>
      have hs : (r.setSig admits sig).pairs = r.pairs := by rw [(setSig_eq sig).choose_spec]
      have hih := ih (r := r.setSig admits sig) (by rwa [hs])
      rw [hs] at hih
      exact hih

theorem seq_run (ops : List (Op K V S)) (h : r.seq.toNat + ops.length < 2 ^ 64) :
    r.seq.toNat ≤ (r.run admits ops).seq.toNat ∧ (r.run admits ops).seq.toNat ≤ r.seq.toNat + ops.length ∧
      (r.seq.toNat < (r.run admits ops).seq.toNat ↔ r.raises admits ops) := by
  induction ops generalizing r with
  | nil => simp [run, raises]
  | cons op ops ih =>
    rw [length_cons] at h ⊢
    have hseq : (r.step admits op).seq.toNat = r.seq.toNat + if r.counts op then 1 else 0 := by
      cases op with
      | set k v =>
        show (if r.signature.isNone then r.seq + 1 else r.seq).toNat = _ + if r.signature.isNone then 1 else 0
        split_ifs
        · exact (UInt64.toNat_add ..).trans (Nat.mod_eq_of_lt (by change _ + 1 < _; omega))
        · rfl
      | setSig sig =>
        rw [step, (setSig_eq sig).choose_spec]
        rfl
    have hih := @ih (r.step admits op) (by split_ifs at hseq <;> omega)
    rw [show r.run admits (op :: ops) = (r.step admits op).run admits ops from rfl, raises, Bool.or_eq_true, ← hih.2.2]
    split_ifs at hseq <;> simp_all <;> omega

/-- In every run the pairs are sorted and hold what was last set. Of two signed versions with
different contents the later one has the larger number if a `Set` between them found the
record unsigned. -/
theorem versions_iff (admits : Record K V S → Option S → Bool) (before after : List (Op K V S))
    (hlen : before.length + after.length < 2 ^ 64) :
    let r := run admits {} before
    let t := run admits {} (before ++ after)
    r.pairs.Pairwise (·.1 < ·.1) ∧ load r.pairs = lastSet (fun _ ↦ none) before ∧
      (r.signature.isSome → t.signature.isSome → r.pairs ≠ t.pairs →
        (r.seq < t.seq ↔ r.raises admits after)) := by
  intro r t
  obtain ⟨hsorted, hload⟩ := @run_pairs K V S _ admits {} before .nil
  have hle : r.seq.toNat ≤ 0 + before.length := (seq_run before (by simp; omega)).2.1
  refine ⟨hsorted, hload, fun _ _ _ ↦ ?_⟩
  rw [UInt64.lt_iff_toNat_lt, ← (seq_run after (by omega)).2.2, ← show t = r.run admits after from foldl_append]

def signedAfter (ops : List (Op ℕ ℕ Unit)) : Record ℕ ℕ Unit := run (fun _ _ ↦ true) {} (ops ++ [.setSig (some ())])

theorem versions_apart :
    (signedAfter [.set 0 0]).seq < (signedAfter [.set 0 0, .setSig (some ()), .set 0 1, .set 0 2]).seq :=
  ((versions_iff (fun (_ : Record ℕ ℕ Unit) _ ↦ true) [.set 0 0, .setSig (some ())]
    [.set 0 1, .set 0 2, .setSig (some ())] (by decide)).2.2 rfl rfl (by decide)).mpr rfl

theorem one_number :
    let r := signedAfter [.set 0 0, .set 1 0]
    let t := signedAfter [.set 0 0, .set 1 0, .setSig (some ()), .set 1 1]
    r.signature.isSome ∧ t.signature.isSome ∧ r.pairs ≠ t.pairs ∧ r.seq = t.seq := ⟨rfl, rfl, by decide, rfl⟩

end Record

end BjutEth.Enr
