import BjutEth.Alien.Types

namespace BjutEth.Pool

open Alien (Address Hash)
open List hiding not_lt

/-- A transaction as the pool sees it. `sender` is what the pool's signer recovers from
the signature, if it is a valid one. -/
structure Transaction where
  hash : Hash
  sender : Option Address
  nonce : UInt64
  gasPrice : ℤ
  gas : UInt64
  recipient : Option Address
  value : ℤ
  data : Bytes
  size : ℕ
  deriving DecidableEq

def Transaction.cost (tx : Transaction) : ℤ := tx.gasPrice * tx.gas.toNat + tx.value

/-! ### `txSortedMap` -/

def insertByNonce (tx : Transaction) : List Transaction → List Transaction
  | [] => [tx]
  | t :: ts =>
    if tx.nonce < t.nonce then tx :: t :: ts
    else if tx.nonce = t.nonce then tx :: ts
    else t :: insertByNonce tx ts

variable {tx : Transaction} {ts removed : List Transaction}

theorem mem_insertByNonce {t : Transaction} (hs : ts.Pairwise (fun t t' ↦ t.nonce < t'.nonce)) :
    t ∈ insertByNonce tx ts ↔ t = tx ∨ t ∈ ts ∧ t.nonce ≠ tx.nonce := by
  induction ts with
  | nil => simp [insertByNonce]
  | cons t' ts ih =>
    obtain ⟨hlt, hs⟩ := pairwise_cons.mp hs
    unfold insertByNonce
    split_ifs with h1 h2
    · have hne : ∀ t ∈ t' :: ts, t.nonce ≠ tx.nonce := by
        intro t ht he
        rcases mem_cons.mp ht with rfl | ht
        · exact absurd (he ▸ h1) (UInt64.lt_irrefl _)
        · exact absurd (UInt64.lt_trans h1 (he ▸ hlt t ht)) (UInt64.lt_irrefl _)
      rw [mem_cons]
      exact ⟨fun h ↦ h.imp_right (fun h ↦ ⟨h, hne t h⟩), fun h ↦ h.imp_right And.left⟩
    · have hne : ∀ t ∈ ts, t.nonce ≠ tx.nonce := fun t ht he ↦
        absurd (h2 ▸ he ▸ hlt t ht) (UInt64.lt_irrefl _)
      rw [mem_cons, mem_cons]
      refine ⟨fun h ↦ h.imp_right (fun h ↦ ⟨.inr h, hne t h⟩), fun h ↦ h.imp_right (fun h ↦ ?_)⟩
      exact h.1.resolve_left (fun he ↦ h.2 (he ▸ h2.symm))
    rw [mem_cons, ih hs, mem_cons]
    constructor
    · rintro (rfl | rfl | ⟨h, hn⟩)
      · exact .inr ⟨.inl rfl, fun he ↦ h2 he.symm⟩
      · exact .inl rfl
      · exact .inr ⟨.inr h, hn⟩
    rintro (rfl | ⟨rfl | h, hn⟩)
    · exact .inr (.inl rfl)
    · exact .inl rfl
    · exact .inr (.inr ⟨h, hn⟩)

theorem sorted_insertByNonce (hs : ts.Pairwise (fun t t' ↦ t.nonce < t'.nonce)) :
    (insertByNonce tx ts).Pairwise (fun t t' ↦ t.nonce < t'.nonce) := by
  induction ts with
  | nil => exact pairwise_singleton _ _
  | cons t' ts ih =>
    obtain ⟨hlt, hs'⟩ := pairwise_cons.mp hs
    unfold insertByNonce
    split_ifs with h1 h2
    · refine pairwise_cons.mpr ⟨fun t ht ↦ ?_, hs⟩
      rcases mem_cons.mp ht with rfl | ht
      · exact h1
      · exact UInt64.lt_trans h1 (hlt t ht)
    · exact pairwise_cons.mpr ⟨fun t ht ↦ h2 ▸ hlt t ht, hs'⟩
    refine pairwise_cons.mpr ⟨fun t ht ↦ ?_, ih hs'⟩
    rcases (mem_insertByNonce hs').mp ht with rfl | ⟨ht, -⟩
    · exact UInt64.lt_of_le_of_ne (UInt64.not_lt.mp h1) (fun he ↦ h2 he.symm)
    · exact hlt t ht

/-- `txSortedMap`: the transactions in the order of their nonces, as `Flatten` gives them.
The heap of nonces and the cache of the source hold the same in another form. -/
structure TxSortedMap where
  items : List Transaction
  sorted : items.Pairwise (fun t t' ↦ t.nonce < t'.nonce)
  deriving DecidableEq

namespace TxSortedMap

def empty : TxSortedMap := ⟨[], .nil⟩

variable (m : TxSortedMap)

def get (nonce : UInt64) : Option Transaction := m.items.find? (fun t ↦ t.nonce = nonce)

def put (tx : Transaction) : TxSortedMap :=
  ⟨insertByNonce tx m.items, sorted_insertByNonce m.sorted⟩

def keep (p : Transaction → Bool) : TxSortedMap :=
  ⟨m.items.filter p, m.sorted.sublist filter_sublist⟩

def forward (threshold : UInt64) : List Transaction × TxSortedMap :=
  (m.items.filter (fun t ↦ t.nonce < threshold), m.keep (fun t ↦ !decide (t.nonce < threshold)))

def filter (p : Transaction → Bool) : List Transaction × TxSortedMap :=
  (m.items.filter p, m.keep (fun t ↦ !p t))

/-- `Cap`: the transactions beyond the limit, highest nonce first, and the map without
them. A negative limit runs out of the index. -/
def cap (threshold : ℤ) : Option (List Transaction × TxSortedMap) :=
  if m.items.length ≤ threshold then some ([], m)
  else if threshold < 0 then none
  else some ((m.items.drop threshold.toNat).reverse,
    ⟨m.items.take threshold.toNat, m.sorted.sublist (take_sublist _ _)⟩)

def remove (nonce : UInt64) : Bool × TxSortedMap :=
  ((m.get nonce).isSome, m.keep (fun t ↦ t.nonce ≠ nonce))

/-- The transactions that follow each other from a nonce on, and those after them. -/
def run : UInt64 → List Transaction → List Transaction × List Transaction
  | _, [] => ([], [])
  | next, t :: ts =>
    if t.nonce = next then (t :: (run (next + 1) ts).1, (run (next + 1) ts).2) else ([], t :: ts)

theorem run_append (next : UInt64) (ts : List Transaction) : (run next ts).1 ++ (run next ts).2 = ts := by
  induction ts generalizing next with
  | nil => rfl
  | cons t ts ih =>
    unfold run
    split_ifs
    · exact congrArg (t :: ·) (ih (next + 1))
    · rfl

/-- `Ready`: the transactions that follow each other from the lowest nonce on, unless that
is above the start, and the map without them. -/
def ready (start : UInt64) : List Transaction × TxSortedMap :=
  match m.items with
  | [] => ([], m)
  | t :: _ =>
    if start < t.nonce then ([], m)
    else
      ((run t.nonce m.items).1, ⟨(run t.nonce m.items).2, by
        have h := m.sorted
        rw [← run_append t.nonce m.items] at h
        exact (pairwise_append.mp h).2.1⟩)

variable {m} {t t' : Transaction}

variable {nonce : UInt64} {m' : TxSortedMap}

theorem get_eq_some_iff : m.get nonce = some t ↔ t ∈ m.items ∧ t.nonce = nonce := by
  obtain ⟨items, sorted⟩ := m
  unfold get
  induction items with
  | nil => simp
  | cons t0 ts ih =>
    obtain ⟨hlt, hs⟩ := pairwise_cons.mp sorted
    rw [find?_cons]
    split
    · rename_i h
      have h : t0.nonce = nonce := of_decide_eq_true h
      constructor
      · rintro ⟨rfl⟩
        exact ⟨mem_cons_self, h⟩
      rintro ⟨ht, hn⟩
      rcases mem_cons.mp ht with rfl | ht
      · rfl
      · exact absurd (hlt t ht) (by rw [h, hn]; exact UInt64.lt_irrefl _)
    rename_i h
    have h : t0.nonce ≠ nonce := of_decide_eq_false h
    rw [ih hs]
    refine and_congr_left (fun hn ↦ ?_)
    rw [mem_cons]
    exact ⟨.inr, fun ht ↦ ht.resolve_left (fun he ↦ h (he ▸ hn))⟩

theorem get_eq_none_iff : m.get nonce = none ↔ ∀ t ∈ m.items, t.nonce ≠ nonce := by
  rw [get, find?_eq_none]
  simp

theorem eq_of_nonce (ht : t ∈ m.items) (ht' : t' ∈ m.items) (h : t.nonce = t'.nonce) : t = t' := by
  have h1 := get_eq_some_iff.mpr ⟨ht, h⟩
  rw [get_eq_some_iff.mpr ⟨ht', rfl⟩] at h1
  exact (Option.some.inj h1).symm

theorem mem_put : t ∈ (m.put tx).items ↔ t = tx ∨ t ∈ m.items ∧ t.nonce ≠ tx.nonce :=
  mem_insertByNonce m.sorted

theorem nodup (m : TxSortedMap) : m.items.Nodup :=
  m.sorted.imp (fun h he ↦ absurd (he ▸ h) (UInt64.lt_irrefl _))

structure Splits (m m' : TxSortedMap) (removed : List Transaction) : Prop where
  perm : m.items.Perm (removed ++ m'.items)

section

variable (h : Splits m m' removed)

include h

theorem Splits.mem_iff : t ∈ m.items ↔ t ∈ removed ∨ t ∈ m'.items := by
  rw [h.perm.mem_iff, mem_append]

theorem Splits.nonce_ne (ht : t ∈ removed) (ht' : t' ∈ m'.items) : t.nonce ≠ t'.nonce := by
  intro he
  have hnd : (removed ++ m'.items).Nodup := h.perm.nodup_iff.mp m.nodup
  obtain rfl := eq_of_nonce (h.mem_iff.mpr (.inl ht)) (h.mem_iff.mpr (.inr ht')) he
  exact (nodup_append.mp hnd).2.2 t ht t ht' rfl

theorem Splits.pairwise : removed.Pairwise (fun t t' ↦ t.nonce ≠ t'.nonce) := by
  have hnd : (removed ++ m'.items).Nodup := h.perm.nodup_iff.mp m.nodup
  refine ((nodup_append.mp hnd).1).imp_of_mem (fun ht ht' hne he ↦ hne ?_)
  exact eq_of_nonce (h.mem_iff.mpr (.inl ht)) (h.mem_iff.mpr (.inl ht')) he

theorem Splits.of_perm {removed' : List Transaction} (hp : removed'.Perm removed) :
    Splits m m' removed' :=
  ⟨h.perm.trans (hp.symm.append_right _)⟩

end

theorem splits_filter (p : Transaction → Bool) : Splits m (m.filter p).2 (m.filter p).1 :=
  ⟨(filter_append_perm p m.items).symm⟩

theorem splits_forward (threshold : UInt64) : Splits m (m.forward threshold).2 (m.forward threshold).1 :=
  splits_filter _

theorem splits_ready (start : UInt64) : Splits m (m.ready start).2 (m.ready start).1 := by
  unfold ready
  split
  · exact ⟨.refl _⟩
  split_ifs
  · exact ⟨.refl _⟩
  refine ⟨?_⟩
  rw [run_append]

theorem splits_cap {threshold : ℤ} {drops : List Transaction} (h : m.cap threshold = some (drops, m')) :
    Splits m m' drops := by
  unfold cap at h
  split_ifs at h
  · cases h
    exact ⟨.refl _⟩
  cases h
  refine ⟨?_⟩
  have hspl : m.items = m.items.take threshold.toNat ++ m.items.drop threshold.toNat :=
    (take_append_drop _ _).symm
  conv_lhs => rw [hspl]
  exact perm_append_comm.trans ((reverse_perm _).symm.append_right _)

theorem mem_remove : t ∈ (m.remove nonce).2.items ↔ t ∈ m.items ∧ t.nonce ≠ nonce := by
  show t ∈ m.items.filter _ ↔ _
  rw [mem_filter, decide_eq_true_eq]

end TxSortedMap

/-! ### `txList` -/

structure TxList where
  strict : Bool
  txs : TxSortedMap := .empty
  costcap : ℤ := 0
  gascap : UInt64 := 0
  deriving DecidableEq

namespace TxList

variable (l : TxList)

def overlaps (tx : Transaction) : Bool := (l.txs.get tx.nonce).isSome

def underbids (priceBump : UInt64) (old tx : Transaction) : Bool :=
  let threshold := old.gasPrice * (priceBump + 100).toInt64.toInt / 100
  old.gasPrice ≥ tx.gasPrice || threshold > tx.gasPrice

def add (tx : Transaction) (priceBump : UInt64) : Bool × Option Transaction × TxList :=
  let old := l.txs.get tx.nonce
  if old.any (fun old ↦ underbids priceBump old tx) then (false, none, l)
  else
    (true, old,
      { l with
        txs := l.txs.put tx
        costcap := if l.costcap < tx.cost then tx.cost else l.costcap
        gascap := if l.gascap < tx.gas then tx.gas else l.gascap })

def forward (threshold : UInt64) : List Transaction × TxList :=
  ((l.txs.forward threshold).1, { l with txs := (l.txs.forward threshold).2 })

/-- `Filter`: what costs more than the limits, what a strict list loses with it, and the
rest. -/
def filter (costLimit : ℤ) (gasLimit : UInt64) : List Transaction × List Transaction × TxList :=
  if l.costcap ≤ costLimit ∧ l.gascap ≤ gasLimit then ([], [], l)
  else
    let (removed, txs) := l.txs.filter (fun tx ↦ costLimit < tx.cost || gasLimit < tx.gas)
    let l := { l with costcap := costLimit, gascap := gasLimit }
    if l.strict && !removed.isEmpty then
      let lowest := removed.foldl (fun lowest tx ↦ if tx.nonce < lowest then tx.nonce else lowest) (-1)
      let (invalids, txs) := txs.filter (fun tx ↦ lowest < tx.nonce)
      (removed, invalids, { l with txs })
    else (removed, [], { l with txs })

def cap (threshold : ℤ) : Option (List Transaction × TxList) :=
  (l.txs.cap threshold).map (fun (drops, txs) ↦ (drops, { l with txs }))

/-- `Remove`: whether the transaction was found, by its nonce, and what a strict list
loses with it. -/
def remove (tx : Transaction) : Bool × List Transaction × TxList :=
  let (removed, txs) := l.txs.remove tx.nonce
  if !removed then (false, [], l)
  else if l.strict then
    let (invalids, txs) := txs.filter (fun t ↦ tx.nonce < t.nonce)
    (true, invalids, { l with txs })
  else (true, [], { l with txs })

def ready (start : UInt64) : List Transaction × TxList :=
  ((l.txs.ready start).1, { l with txs := (l.txs.ready start).2 })

def len : ℕ := l.txs.items.length

def isEmpty : Bool := l.txs.items.isEmpty

def flatten : List Transaction := l.txs.items

/-- A list of the given kind whose caps are above all its transactions. -/
structure Sound (l : TxList) (strict : Bool) : Prop where
  strict : l.strict = strict
  capped : ∀ t ∈ l.txs.items, t.cost ≤ l.costcap ∧ t.gas ≤ l.gascap

def Derives (l l' : TxList) : Prop := ∀ strict, l.Sound strict → l'.Sound strict

variable {l} {l' : TxList} {strict : Bool}

theorem Derives.of_splits {txs : TxSortedMap} (h : TxSortedMap.Splits l.txs txs removed) :
    l.Derives { l with txs } :=
  fun _ hs ↦ ⟨hs.strict, fun t ht ↦ hs.capped t (h.mem_iff.mpr (.inr ht))⟩

theorem derives_add (l : TxList) (t : Transaction) (priceBump : UInt64) : l.Derives (l.add t priceBump).2.2 := by
  intro strict hs
  unfold add
  by_cases hold : (l.txs.get t.nonce).any (fun old ↦ underbids priceBump old t) = true
  · rw [if_pos hold]
    exact hs
  rw [if_neg hold]
  have hcost : l.costcap ≤ (if l.costcap < t.cost then t.cost else l.costcap) ∧
      t.cost ≤ (if l.costcap < t.cost then t.cost else l.costcap) := by
    split_ifs with h
    · exact ⟨h.le, le_rfl⟩
    · exact ⟨le_rfl, not_lt.mp h⟩
  have hgas : l.gascap ≤ (if l.gascap < t.gas then t.gas else l.gascap) ∧
      t.gas ≤ (if l.gascap < t.gas then t.gas else l.gascap) := by
    split_ifs with h
    · exact ⟨UInt64.le_of_lt h, UInt64.le_refl _⟩
    · exact ⟨UInt64.le_refl _, UInt64.not_lt.mp h⟩
  refine ⟨hs.strict, fun t' ht' ↦ ?_⟩
  rcases TxSortedMap.mem_put.mp ht' with rfl | ⟨ht', -⟩
  · exact ⟨hcost.2, hgas.2⟩
  obtain ⟨hc, hg⟩ := hs.capped t' ht'
  exact ⟨hc.trans hcost.1, UInt64.le_trans hg hgas.1⟩

theorem foldl_lowest (ts : List Transaction) (start : UInt64) :
    let lowest := ts.foldl (fun lowest tx ↦ if tx.nonce < lowest then tx.nonce else lowest) start
    (∀ t ∈ ts, lowest ≤ t.nonce) ∧ lowest ≤ start ∧ (lowest = start ∨ ∃ t ∈ ts, t.nonce = lowest) := by
  induction ts generalizing start with
  | nil => exact ⟨by simp, UInt64.le_refl _, .inl rfl⟩
  | cons t ts ih =>
    obtain ⟨hall, hle, hmem⟩ := ih (if t.nonce < start then t.nonce else start)
    have hmin : (if t.nonce < start then t.nonce else start) ≤ t.nonce ∧
        (if t.nonce < start then t.nonce else start) ≤ start := by
      split_ifs with hlt
      · exact ⟨UInt64.le_refl _, UInt64.le_of_lt hlt⟩
      · exact ⟨UInt64.not_lt.mp hlt, UInt64.le_refl _⟩
    refine ⟨fun t' ht' ↦ ?_, UInt64.le_trans hle hmin.2, ?_⟩
    · rcases mem_cons.mp ht' with rfl | ht'
      · exact UInt64.le_trans hle hmin.1
      · exact hall t' ht'
    rcases hmem with he | ⟨t', ht', hn⟩
    · rw [foldl_cons, he]
      split_ifs
      · exact .inr ⟨t, mem_cons_self, rfl⟩
      · exact .inl rfl
    · exact .inr ⟨t', mem_cons_of_mem t ht', hn⟩

def exceeds (costLimit : ℤ) (gasLimit : UInt64) (tx : Transaction) : Bool :=
  costLimit < tx.cost || gasLimit < tx.gas

theorem exceeds_eq_false {cost : ℤ} {gas : UInt64} :
    exceeds cost gas t = false ↔ t.cost ≤ cost ∧ t.gas ≤ gas := by
  unfold exceeds
  rw [Bool.or_eq_false_iff, decide_eq_false_iff_not, decide_eq_false_iff_not, Int.not_lt, UInt64.not_lt]

/-- A nonce is above the lowest of those removed when it is above one of them. -/
theorem lowest_lt_iff (removed : List Transaction) (nonce : UInt64) :
    removed.foldl (fun lowest tx ↦ if tx.nonce < lowest then tx.nonce else lowest) (-1) < nonce ↔
      ∃ r ∈ removed, r.nonce < nonce := by
  obtain ⟨hall, -, hmem⟩ := foldl_lowest removed (-1)
  constructor
  · intro hlt
    rcases hmem with he | ⟨r, hr, hn⟩
    · rw [he] at hlt
      have hmax : nonce ≤ -1 := UInt64.le_iff_toNat_le.mpr (Nat.le_of_lt_succ nonce.toNat_lt)
      exact absurd (UInt64.lt_of_lt_of_le hlt hmax) (UInt64.lt_irrefl _)
    · exact ⟨r, hr, hn ▸ hlt⟩
  · rintro ⟨r, hr, hlt⟩
    exact UInt64.lt_of_le_of_lt (hall r hr) hlt

/-- The caps let `Filter` return early only where there is nothing to remove. -/
theorem mem_filtered (hs : l.Sound strict) (cost : ℤ) (gas : UInt64) (t : Transaction) :
    (t ∈ (l.filter cost gas).1 ↔ t ∈ l.txs.items ∧ exceeds cost gas t = true) ∧
    (t ∈ (l.filter cost gas).2.1 ↔ strict = true ∧ t ∈ l.txs.items ∧
      exceeds cost gas t = false ∧ ∃ r ∈ (l.filter cost gas).1, r.nonce < t.nonce) ∧
    (t ∈ (l.filter cost gas).2.2.txs.items ↔ t ∈ l.txs.items ∧ exceeds cost gas t = false ∧
      ¬ (strict = true ∧ ∃ r ∈ (l.filter cost gas).1, r.nonce < t.nonce)) := by
  obtain rfl := hs.strict
  by_cases hc : l.costcap ≤ cost ∧ l.gascap ≤ gas
  · have hin : t ∈ l.txs.items → exceeds cost gas t = false := by
      intro ht
      obtain ⟨hcost, hgas⟩ := hs.capped t ht
      exact exceeds_eq_false.mpr ⟨hcost.trans hc.1, UInt64.le_trans hgas hc.2⟩
    have he : l.filter cost gas = ([], [], l) := if_pos hc
    rw [he]
    simp +contextual [hin]
  have hgone (r : Transaction) : r ∈ (l.txs.filter (exceeds cost gas)).1 ↔
      r ∈ l.txs.items ∧ exceeds cost gas r = true := mem_filter
  have hkept : t ∈ (l.txs.filter (exceeds cost gas)).2.items ↔
      t ∈ l.txs.items ∧ exceeds cost gas t = false := by
    refine mem_filter.trans (and_congr_right (fun _ ↦ ?_))
    rw [Bool.not_eq_true']
  by_cases hlow : (l.strict && !(l.txs.filter (exceeds cost gas)).1.isEmpty) = true
  · have he : l.filter cost gas = ((l.txs.filter (exceeds cost gas)).1,
        ((l.txs.filter (exceeds cost gas)).2.filter _).1, { l with
          txs := ((l.txs.filter (exceeds cost gas)).2.filter _).2, costcap := cost, gascap := gas }) :=
      (if_neg hc).trans (if_pos hlow)
    have hstrict := (Bool.and_eq_true_iff.mp hlow).1
    rw [he]
    refine ⟨hgone t, ?_, ?_⟩
    · refine mem_filter.trans ?_
      rw [hkept, decide_eq_true_eq, lowest_lt_iff, and_assoc]
      exact (and_iff_right hstrict).symm
    refine mem_filter.trans ?_
    rw [hkept, Bool.not_eq_true', decide_eq_false_iff_not, lowest_lt_iff, and_assoc, and_iff_right hstrict]
    exact .rfl
  have he : l.filter cost gas = ((l.txs.filter (exceeds cost gas)).1, [], { l with
      txs := (l.txs.filter (exceeds cost gas)).2, costcap := cost, gascap := gas }) :=
    (if_neg hc).trans (if_neg hlow)
  have hnone : ¬ (l.strict = true ∧ ∃ r ∈ (l.txs.filter (exceeds cost gas)).1, r.nonce < t.nonce) := by
    rintro ⟨hstrict, r, hr, -⟩
    rw [hstrict, Bool.true_and, Bool.not_eq_true, Bool.not_eq_false', List.isEmpty_iff] at hlow
    rw [hlow] at hr
    cases hr
  rw [he]
  refine ⟨hgone t, ?_, ?_⟩
  · exact iff_of_false not_mem_nil (fun h ↦ hnone ⟨h.1, h.2.2.2⟩)
  rw [← and_assoc]
  exact hkept.trans (and_iff_left hnone).symm

theorem within_filter (hs : l.Sound strict) (cost : ℤ) (gas : UInt64) :
    ∀ t ∈ (l.filter cost gas).2.2.txs.items, t.cost ≤ cost ∧ t.gas ≤ gas :=
  fun t ht ↦ exceeds_eq_false.mp ((mem_filtered hs cost gas t).2.2.mp ht).2.1

theorem derives_filter (cost : ℤ) (gas : UInt64) : l.Derives (l.filter cost gas).2.2 := by
  intro strict hs
  have hwit := within_filter hs cost gas
  unfold filter at hwit ⊢
  by_cases hc : l.costcap ≤ cost ∧ l.gascap ≤ gas
  · rw [if_pos hc]
    exact hs
  dsimp only at hwit ⊢
  split_ifs at hwit ⊢
  · exact ⟨hs.strict, hwit⟩
  · exact ⟨hs.strict, hwit⟩

end TxList

end BjutEth.Pool
