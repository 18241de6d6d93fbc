import BjutEth.Pool.TxPool

namespace BjutEth.Pool

open Std List ExtTreeMap GoMap
open TxSortedMap (Splits mem_put)
open Alien (Address Hash Runtime)

variable {U : Transaction → Prop} {rt : Runtime} {p p' : TxPool} {loose debt : List Transaction}
variable {a b : Address} {t t' : Transaction} {l l' : TxList} {lists : GoMap Address TxList}

def Listed (lists : GoMap Address TxList) (a : Address) (t : Transaction) : Prop :=
  ∃ l, lists[a]? = some l ∧ t ∈ l.txs.items

theorem listed_insert (lists : GoMap Address TxList) :
    Listed (lists.insert a l) b t ↔ (b = a ∧ t ∈ l.txs.items) ∨ (b ≠ a ∧ Listed lists b t) := by
  unfold Listed
  rw [get_insert]
  by_cases hb : b = a
  · subst hb
    simp
  · simp [Ne.symm hb, hb]

theorem listed_insert_self : Listed (lists.insert a l) a t ↔ t ∈ l.txs.items := by
  rw [listed_insert]
  simp

theorem listed_erase (lists : GoMap Address TxList) :
    Listed (lists.erase a) b t ↔ b ≠ a ∧ Listed lists b t := by
  unfold Listed
  rw [get_erase]
  by_cases hb : b = a
  · subst hb
    simp
  · simp [Ne.symm hb, hb]

theorem listed_iff (hl : lists[a]? = some l) :
    Listed lists a t ↔ t ∈ l.txs.items := by
  unfold Listed
  rw [hl]
  simp

theorem Listed.eq_of_nonce (h : Listed lists a t) (h' : Listed lists a t')
    (hn : t.nonce = t'.nonce) : t = t' := by
  obtain ⟨l, hl, ht⟩ := h
  obtain ⟨l', hl', ht'⟩ := h'
  cases hl.symm.trans hl'
  exact TxSortedMap.eq_of_nonce ht ht' hn

theorem not_listed_of_isEmpty (hl : lists[a]? = some l)
    (he : l.isEmpty = true) : ¬ Listed lists a t := by
  rw [listed_iff hl, List.isEmpty_iff.mp he]
  exact not_mem_nil

theorem not_listed_empty : ¬ Listed ∅ a t := by
  rintro ⟨l, hl, -⟩
  cases hl

variable {strict : Bool}

theorem listed_getD :
    t ∈ (lists[a]?.getD { strict }).txs.items ↔ Listed lists a t := by
  unfold Listed
  cases lists[a]? with
  | none => simp [TxSortedMap.empty]
  | some l => simp

section Update

variable {removed : List Transaction}

theorem listed_of_take (hl : lists[a]? = some l) (hs : Splits l.txs l'.txs removed)
    (h : Listed (lists.insert a l') b t) : Listed lists b t := by
  rcases (listed_insert lists).mp h with ⟨rfl, ht⟩ | ⟨-, hb⟩
  · exact (listed_iff hl).mpr (hs.mem_iff.mpr (.inr ht))
  · exact hb

theorem listed_or_removed (hl : lists[a]? = some l) (hs : Splits l.txs l'.txs removed)
    (h : Listed lists b t) : Listed (lists.insert a l') b t ∨ t ∈ removed := by
  rw [listed_insert]
  by_cases hb : b = a
  · subst hb
    exact (hs.mem_iff.mp ((listed_iff hl).mp h)).symm.imp_left (fun ht ↦ .inl ⟨rfl, ht⟩)
  · exact .inl (.inr ⟨hb, h⟩)

theorem nonce_ne_of_removed (hs : Splits l.txs l'.txs removed) (ht : t ∈ removed)
    (h : Listed (lists.insert a l') a t') : t'.nonce ≠ t.nonce :=
  (hs.nonce_ne ht (listed_insert_self.mp h)).symm

theorem listed_put (hl : l.txs = (lists[a]?.getD { strict }).txs.put t)
    (hfree : ∀ t', Listed lists a t' → t'.nonce ≠ t.nonce) :
    Listed (lists.insert a l) b t' ↔ Listed lists b t' ∨ b = a ∧ t' = t := by
  rw [listed_insert, hl, mem_put, listed_getD]
  by_cases hb : b = a
  · subst hb
    simp only [true_and, ne_eq, not_true_eq_false, false_and, or_false]
    exact ⟨fun h' ↦ h'.elim .inr (fun h' ↦ .inl h'.1),
      fun h' ↦ h'.elim (fun h' ↦ .inr ⟨h', hfree t' h'⟩) .inl⟩
  · simp [hb]

end Update

namespace TxPool

def Pooled (p : TxPool) (t : Transaction) : Prop := ∃ a, Listed p.pending a t ∨ Listed p.queue a t

/-- A pool at work: the loose transactions, which are in the index and on their way from or
to a list, and those that were taken from the price heap while they are in the index. -/
structure Conf where
  pool : TxPool
  loose : List Transaction := []
  debt : List Transaction := []

instance : Coe TxPool Conf := ⟨fun p ↦ ⟨p, [], []⟩⟩

def Separated (U : Transaction → Prop) : Prop := ∀ t t', U t → U t' → t.hash = t'.hash → t = t'

/-- The index holds the transactions of the lists and the loose ones. All of them, and those
of the heap, are of one collection, and no two in the index have the same sender and
nonce. -/
structure Indexed (U : Transaction → Prop) (c : Conf) : Prop where
  univ : ∀ t, c.pool.Pooled t ∨ t ∈ c.loose → U t
  heap : ∀ t, t ∈ c.pool.priced.items.toList ∨ t ∈ c.debt → U t
  pending_sender : ∀ a t, Listed c.pool.pending a t → t.sender = some a
  queue_sender : ∀ a t, Listed c.pool.queue a t → t.sender = some a
  apart : ∀ a t t', Listed c.pool.pending a t → Listed c.pool.queue a t' → t.nonce ≠ t'.nonce
  loose_free : ∀ t ∈ c.loose, ∃ a, t.sender = some a ∧
    ∀ t', Listed c.pool.pending a t' ∨ Listed c.pool.queue a t' → t'.nonce ≠ t.nonce
  loose_apart : c.loose.Pairwise (fun t t' ↦ t.sender = t'.sender → t.nonce ≠ t'.nonce)
  all : ∀ h t, c.pool.all[h]? = some t ↔ t.hash = h ∧ (c.pool.Pooled t ∨ t ∈ c.loose)
  pending_sound : ∀ (a : Address) l, c.pool.pending[a]? = some l → l.Sound true
  queue_sound : ∀ (a : Address) l, c.pool.queue[a]? = some l → l.Sound false

/-- A transaction that may come into the pool: one of the collection and, if that is asked
for, one without an entry in the price heap. -/
def Admits (U : Transaction → Prop) (fresh : Bool) (p : TxPool) (t : Transaction) : Prop :=
  U t ∧ (fresh = true → t ∉ p.priced.items.toList)

/-- The pools are set up alike and look at the same state of the chain. -/
structure SameHead (p p' : TxPool) : Prop where
  config : p'.config = p.config
  state : p'.currentState = p.currentState
  maxGas : p'.currentMaxGas = p.currentMaxGas

theorem SameHead.refl (p : TxPool) : SameHead p p := ⟨rfl, rfl, rfl⟩

theorem SameHead.trans {p'' : TxPool} (h : SameHead p p') (h' : SameHead p' p'') : SameHead p p'' :=
  ⟨h'.config.trans h.config, h'.state.trans h.state, h'.maxGas.trans h.maxGas⟩

inductive Move (U : Transaction → Prop) (fresh : Bool) (rt : Runtime) : Conf → Conf → Prop
  | takePending {p : TxPool} {loose debt removed : List Transaction} {a : Address} {l l' : TxList}
      (hl : p.pending[a]? = some l) (hs : TxSortedMap.Splits l.txs l'.txs removed)
      (hst : l.Derives l') :
      Move U fresh rt ⟨p, loose, debt⟩ ⟨p.setPending a l', removed ++ loose, debt⟩
  | takeQueue {p : TxPool} {loose debt removed : List Transaction} {a : Address} {l l' : TxList}
      (hl : p.queue[a]? = some l) (hs : TxSortedMap.Splits l.txs l'.txs removed)
      (hst : l.Derives l') :
      Move U fresh rt ⟨p, loose, debt⟩ ⟨p.setQueue a l', removed ++ loose, debt⟩
  | erasePending {p : TxPool} {loose debt : List Transaction} {a : Address} {l : TxList}
      (hl : p.pending[a]? = some l) (he : l.isEmpty = true) :
      Move U fresh rt ⟨p, loose, debt⟩ ⟨p.erasePending a, loose, debt⟩
  | eraseQueue {p : TxPool} {loose debt : List Transaction} {a : Address} {l : TxList}
      (hl : p.queue[a]? = some l) (he : l.isEmpty = true) :
      Move U fresh rt ⟨p, loose, debt⟩ ⟨p.eraseQueue a, loose, debt⟩
  | putPending {p : TxPool} {loose debt : List Transaction} {a : Address} {t : Transaction} {l : TxList}
      (ht : t.sender = some a) (hl : l.txs = (p.pending[a]?.getD { strict := true }).txs.put t)
      (hst : l.Sound true) :
      Move U fresh rt ⟨p, t :: loose, debt⟩ ⟨p.setPending a l, loose, debt⟩
  | putQueue {p : TxPool} {loose debt : List Transaction} {a : Address} {t : Transaction} {l : TxList}
      (ht : t.sender = some a) (hl : l.txs = (p.queue[a]?.getD { strict := false }).txs.put t)
      (hst : l.Sound false) :
      Move U fresh rt ⟨p, t :: loose, debt⟩ ⟨p.setQueue a l, loose, debt⟩
  | forget {p : TxPool} {loose : List Transaction} {t : Transaction} :
      Move U fresh rt ⟨p, t :: loose, []⟩ ⟨p.forget rt t, loose, []⟩
  | drop {p : TxPool} {loose debt debt' : List Transaction} {t : Transaction} (ht : debt.Perm (t :: debt')) :
      Move U fresh rt ⟨p, t :: loose, debt⟩ ⟨{ p with all := p.all.erase t.hash }, loose, debt'⟩
  | cleared {p : TxPool} {loose debt debt' : List Transaction} {t : Transaction}
      (ht : debt.Perm (t :: debt')) (hn : p.all[t.hash]? = none) :
      Move U fresh rt ⟨p, loose, debt⟩ ⟨p, loose, debt'⟩
  | enter {p : TxPool} {t : Transaction} {a : Address} (ha : t.sender = some a)
      (hok : Admits U fresh p t) (hnew : p.all[t.hash]? = none)
      (hfree : ∀ t', Listed p.pending a t' ∨ Listed p.queue a t' → t'.nonce ≠ t.nonce) :
      Move U fresh rt p ⟨p.enlist t, [t], []⟩
  | popStale {p : TxPool} {loose debt : List Transaction} {items : Array Transaction} {t : Transaction}
      (hpop : p.priced.items.toList.Perm (t :: items.toList)) (hn : p.all[t.hash]? = none) :
      Move U fresh rt ⟨p, loose, debt⟩
        ⟨{ p with priced := { items, stales := p.priced.stales - 1 } }, loose, debt⟩
  | popLive {p : TxPool} {loose debt : List Transaction} {items : Array Transaction} {t : Transaction}
      (hpop : p.priced.items.toList.Perm (t :: items.toList)) (hn : p.all[t.hash]?.isSome) :
      Move U fresh rt ⟨p, loose, debt⟩ ⟨{ p with priced := { p.priced with items } }, loose, t :: debt⟩
  | pushLive {p : TxPool} {loose debt debt' : List Transaction} {items : Array Transaction} {t : Transaction}
      (ht : debt.Perm (t :: debt')) (hpush : items.toList.Perm (t :: p.priced.items.toList)) :
      Move U fresh rt ⟨p, loose, debt⟩ ⟨{ p with priced := { p.priced with items } }, loose, debt'⟩
  | other {p p' : TxPool} {loose debt : List Transaction} (hp : p'.pending = p.pending)
      (hq : p'.queue = p.queue) (ha : p'.all = p.all) (hpr : p'.priced = p.priced)
      (hh : SameHead p p') : Move U fresh rt ⟨p, loose, debt⟩ ⟨p', loose, debt⟩

variable {fresh : Bool} {c c' : Conf}

theorem Move.sameHead (hm : Move U fresh rt c c') : SameHead c.pool c'.pool := by
  cases hm with
  | other _ _ _ _ hh => exact hh
  | _ => exact ⟨rfl, rfl, rfl⟩

theorem Indexed.pooled_of_all (h : Indexed U c) {hash : Hash} (ht : c.pool.all[hash]? = some t) : U t :=
  h.univ t ((h.all hash t).mp ht).2

theorem Indexed.eq_of_hash (hU : Separated U) (h : Indexed U c)
    (ht : U t) (h' : c.pool.all[t.hash]? = some t') : t' = t :=
  hU t' t (h.pooled_of_all h') ht ((h.all _ _).mp h').1

theorem Indexed.nonce_ne_of_loose (h : Indexed U ⟨p, t :: loose, debt⟩) (ha : t.sender = some a) :
    ∀ t', Listed p.pending a t' ∨ Listed p.queue a t' → t'.nonce ≠ t.nonce := by
  obtain ⟨b, hb, hfree⟩ := h.loose_free t mem_cons_self
  cases ha.symm.trans hb
  exact hfree

theorem Indexed.take (h : Indexed U ⟨p, loose, debt⟩) {removed : List Transaction}
    (hpr : p'.priced = p.priced) (hall : p'.all = p.all)
    (hpend : ∀ b t, Listed p'.pending b t → Listed p.pending b t)
    (hque : ∀ b t, Listed p'.queue b t → Listed p.queue b t)
    (hrem : ∀ t ∈ removed, t.sender = some a ∧ (Listed p.pending a t ∨ Listed p.queue a t) ∧
      ∀ t', Listed p'.pending a t' ∨ Listed p'.queue a t' → t'.nonce ≠ t.nonce)
    (hkept : ∀ b t, Listed p.pending b t ∨ Listed p.queue b t →
      (Listed p'.pending b t ∨ Listed p'.queue b t) ∨ t ∈ removed)
    (hapart : removed.Pairwise (fun t t' ↦ t.nonce ≠ t'.nonce))
    (hps : ∀ (a : Address) l, p'.pending[a]? = some l → l.Sound true)
    (hqs : ∀ (a : Address) l, p'.queue[a]? = some l → l.Sound false) :
    Indexed U ⟨p', removed ++ loose, debt⟩ := by
  have hold : ∀ b t, Listed p'.pending b t ∨ Listed p'.queue b t → Listed p.pending b t ∨ Listed p.queue b t :=
    fun b t ↦ Or.imp (hpend b t) (hque b t)
  have hpool : ∀ t, p'.Pooled t ∨ t ∈ removed ++ loose ↔ p.Pooled t ∨ t ∈ loose := by
    intro t
    rw [mem_append]
    constructor
    · rintro (⟨b, hb⟩ | ht | ht)
      · exact .inl ⟨b, hold b t hb⟩
      · exact .inl ⟨a, (hrem t ht).2.1⟩
      · exact .inr ht
    rintro (⟨b, hb⟩ | ht)
    · exact (hkept b t hb).elim (fun hb ↦ .inl ⟨b, hb⟩) (fun ht ↦ .inr (.inl ht))
    · exact .inr (.inr ht)
  refine ⟨fun t ht ↦ h.univ t ((hpool t).mp ht), ?_, fun b t hb ↦ h.pending_sender b t (hpend b t hb),
    fun b t hb ↦ h.queue_sender b t (hque b t hb),
    fun b t t' hb hb' ↦ h.apart b t t' (hpend b t hb) (hque b t' hb'), fun t ht ↦ ?_, ?_, fun hash t ↦ ?_,
    hps, hqs⟩
  · rw [hpr]
    exact h.heap
  · rcases mem_append.mp ht with ht | ht
    · exact ⟨a, (hrem t ht).1, (hrem t ht).2.2⟩
    obtain ⟨b, hb, hfree⟩ := h.loose_free t ht
    exact ⟨b, hb, fun t' ht' ↦ hfree t' (hold b t' ht')⟩
  · have hsame : removed.Pairwise (fun t t' ↦ t.sender = t'.sender → t.nonce ≠ t'.nonce) := by
      refine hapart.imp ?_
      intro t t' hne _
      exact hne
    refine pairwise_append.mpr ⟨hsame, h.loose_apart, fun t ht t' ht' hs ↦ ?_⟩
    obtain ⟨b, hb, hfree⟩ := h.loose_free t' ht'
    obtain ⟨hsa, hin, -⟩ := hrem t ht
    have hab : a = b := Option.some.inj (hsa.symm.trans (hs.trans hb))
    exact hfree t (hab ▸ hin)
  · rw [hall, h.all hash t, hpool t]

theorem Indexed.put (h : Indexed U ⟨p, t :: loose, debt⟩) (ha : t.sender = some a)
    (hpr : p'.priced = p.priced) (hall : p'.all = p.all)
    (hside : (∀ b t', Listed p'.pending b t' ↔ Listed p.pending b t' ∨ b = a ∧ t' = t) ∧
        (∀ b t', Listed p'.queue b t' ↔ Listed p.queue b t') ∨
      (∀ b t', Listed p'.queue b t' ↔ Listed p.queue b t' ∨ b = a ∧ t' = t) ∧
        (∀ b t', Listed p'.pending b t' ↔ Listed p.pending b t'))
    (hps : ∀ (a : Address) l, p'.pending[a]? = some l → l.Sound true)
    (hqs : ∀ (a : Address) l, p'.queue[a]? = some l → l.Sound false) :
    Indexed U ⟨p', loose, debt⟩ := by
  have hnew : ∀ b t', Listed p'.pending b t' ∨ Listed p'.queue b t' ↔
      (Listed p.pending b t' ∨ Listed p.queue b t') ∨ b = a ∧ t' = t := by
    intro b t'
    rcases hside with ⟨h1, h2⟩ | ⟨h1, h2⟩
    · rw [h1, h2]
      tauto
    · rw [h1, h2]
      tauto
  have hpool : ∀ t', p'.Pooled t' ∨ t' ∈ loose ↔ p.Pooled t' ∨ t' ∈ t :: loose := by
    intro t'
    rw [mem_cons]
    constructor
    · rintro (⟨b, hb⟩ | ht')
      · exact ((hnew b t').mp hb).elim (fun hb ↦ .inl ⟨b, hb⟩) (fun hb ↦ .inr (.inl hb.2))
      · exact .inr (.inr ht')
    rintro (⟨b, hb⟩ | rfl | ht')
    · exact .inl ⟨b, (hnew b t').mpr (.inl hb)⟩
    · exact .inl ⟨a, (hnew a t').mpr (.inr ⟨rfl, rfl⟩)⟩
    · exact .inr ht'
  obtain ⟨hout, hapart⟩ := pairwise_cons.mp h.loose_apart
  have hfree := h.nonce_ne_of_loose ha
  refine ⟨fun t' ht' ↦ h.univ t' ((hpool t').mp ht'), ?_, fun b t' hb ↦ ?_, fun b t' hb ↦ ?_,
    fun b t1 t2 h1 h2 ↦ ?_, fun t' ht' ↦ ?_, hapart, fun hash t' ↦ ?_, hps, hqs⟩
  · rw [hpr]
    exact h.heap
  · rcases hside with ⟨hp, -⟩ | ⟨-, hp⟩
    · rcases (hp b t').mp hb with hb | ⟨rfl, rfl⟩
      · exact h.pending_sender b t' hb
      · exact ha
    · exact h.pending_sender b t' ((hp b t').mp hb)
  · rcases hside with ⟨-, hq⟩ | ⟨hq, -⟩
    · exact h.queue_sender b t' ((hq b t').mp hb)
    rcases (hq b t').mp hb with hb | ⟨rfl, rfl⟩
    · exact h.queue_sender b t' hb
    · exact ha
  · rcases hside with ⟨hp, hq⟩ | ⟨hq, hp⟩
    · rcases (hp b t1).mp h1 with h1 | ⟨rfl, rfl⟩
      · exact h.apart b t1 t2 h1 ((hq b t2).mp h2)
      · exact (hfree t2 (.inr ((hq b t2).mp h2))).symm
    rcases (hq b t2).mp h2 with h2 | ⟨rfl, rfl⟩
    · exact h.apart b t1 t2 ((hp b t1).mp h1) h2
    · exact hfree t1 (.inl ((hp b t1).mp h1))
  · obtain ⟨b, hb, hfree'⟩ := h.loose_free t' (mem_cons_of_mem t ht')
    refine ⟨b, hb, fun t'' ht'' ↦ ?_⟩
    rcases (hnew b t'').mp ht'' with ht'' | ⟨rfl, rfl⟩
    · exact hfree' t'' ht''
    · exact hout t' ht' (ha.trans hb.symm)
  · rw [hall, h.all hash t', hpool t']

theorem Indexed.leave (hU : Separated U)
    (h : Indexed U ⟨p, t :: loose, debt⟩) {debt' : List Transaction} (hp : p'.pending = p.pending)
    (hq : p'.queue = p.queue) (hall : p'.all = p.all.erase t.hash)
    (hheap : ∀ t', t' ∈ p'.priced.items.toList ∨ t' ∈ debt' → U t') : Indexed U ⟨p', loose, debt'⟩ := by
  have hpool : ∀ t', p'.Pooled t' ↔ p.Pooled t' := fun t' ↦ by rw [Pooled, Pooled, hp, hq]
  obtain ⟨hout, hapart⟩ := pairwise_cons.mp h.loose_apart
  obtain ⟨b, hb, hfree⟩ := h.loose_free t mem_cons_self
  -- the transaction is nowhere else
  have hgone : ¬ (p.Pooled t ∨ t ∈ loose) := by
    rintro (⟨a, ha⟩ | ht)
    · have has : t.sender = some a := ha.elim (h.pending_sender a t) (h.queue_sender a t)
      have hab : a = b := Option.some.inj (has.symm.trans hb)
      exact hfree t (hab ▸ ha) rfl
    · exact hout t ht rfl rfl
  refine ⟨fun t' ht' ↦ h.univ t' ?_, hheap, ?_, ?_, ?_, fun t' ht' ↦ ?_, hapart, fun hash t' ↦ ?_,
    fun a l hl ↦ h.pending_sound a l (hp ▸ hl), fun a l hl ↦ h.queue_sound a l (hq ▸ hl)⟩
  · exact ht'.imp (fun ht' ↦ (hpool t').mp ht') (mem_cons_of_mem t)
  · rw [hp]
    exact h.pending_sender
  · rw [hq]
    exact h.queue_sender
  · rw [hp, hq]
    exact h.apart
  · rw [hp, hq]
    exact h.loose_free t' (mem_cons_of_mem t ht')
  rw [hall, get_erase, hpool t']
  by_cases hh : t.hash = hash
  · rw [if_pos hh]
    refine iff_of_false (by simp) ?_
    rintro ⟨hh', ht'⟩
    refine hgone ?_
    have hin : p.Pooled t' ∨ t' ∈ t :: loose := ht'.imp_right (mem_cons_of_mem t)
    rw [← hU t' t (h.univ t' hin) (h.univ t (.inr mem_cons_self)) (hh'.trans hh.symm)]
    exact ht'
  rw [if_neg hh, h.all hash t']
  refine and_congr_right (fun hh' ↦ or_congr_right ?_)
  rw [mem_cons]
  exact ⟨fun ht' ↦ ht'.resolve_left (fun he ↦ hh (he ▸ hh')), .inr⟩

theorem Indexed.reprice (h : Indexed U ⟨p, loose, debt⟩) {debt' : List Transaction}
    (hp : p'.pending = p.pending) (hq : p'.queue = p.queue) (hall : p'.all = p.all)
    (hheap : ∀ t, t ∈ p'.priced.items.toList ∨ t ∈ debt' → U t) : Indexed U ⟨p', loose, debt'⟩ := by
  have hpool : ∀ t, p'.Pooled t ↔ p.Pooled t := fun t ↦ by rw [Pooled, Pooled, hp, hq]
  refine ⟨fun t ht ↦ h.univ t (ht.imp_left (hpool t).mp), hheap, ?_, ?_, ?_, ?_, h.loose_apart,
    fun hash t ↦ ?_, fun a l hl ↦ h.pending_sound a l (hp ▸ hl), fun a l hl ↦ h.queue_sound a l (hq ▸ hl)⟩
  · rw [hp]
    exact h.pending_sender
  · rw [hq]
    exact h.queue_sender
  · rw [hp, hq]
    exact h.apart
  · rw [hp, hq]
    exact h.loose_free
  · rw [hall, hpool t]
    exact h.all hash t

theorem mem_items_removed {all : TxLookup} {l : TxPricedList}
    (h : t ∈ (l.removed rt all).items.toList) : t ∈ l.items.toList ∨ ∃ hash : Hash, all[hash]? = some t := by
  unfold TxPricedList.removed at h
  dsimp only at h
  split_ifs at h
  · exact .inl h
  refine .inr ?_
  rw [(Heap.init_perm cheaper _).mem_iff, toList_toArray, (rt.rangeOrder_perm _).mem_iff] at h
  obtain ⟨e, he, rfl⟩ := List.mem_map.mp h
  exact ⟨e.1, mem_toList_iff_getElem?_eq_some.mp he⟩

section

variable (h : ∀ (b : Address) l, lists[b]? = some l → l.Sound strict)

include h

theorem sound_insert (hl : l.Sound strict) :
    ∀ (b : Address) l', (lists.insert a l)[b]? = some l' → l'.Sound strict := by
  intro b l' hl'
  rw [ExtTreeMap.getElem?_insert] at hl'
  split_ifs at hl'
  · exact Option.some.inj hl' ▸ hl
  · exact h b l' hl'

theorem sound_erase : ∀ (b : Address) l', (lists.erase a)[b]? = some l' → l'.Sound strict := by
  intro b l' hl'
  rw [getElem?_erase] at hl'
  split_ifs at hl'
  exact h b l' hl'

end

theorem Indexed.enter (h : Indexed U p) (hUt : U t) (ha : t.sender = some a) (hnew : p.all[t.hash]? = none)
    (hfree : ∀ t', Listed p.pending a t' ∨ Listed p.queue a t' → t'.nonce ≠ t.nonce) :
    Indexed U ⟨p.enlist t, [t], []⟩ := by
  refine ⟨fun t' ht' ↦ ?_, fun t' ht' ↦ ?_, h.pending_sender, h.queue_sender, h.apart, fun t' ht' ↦ ?_,
    pairwise_singleton _ _, fun hash t' ↦ ?_, h.pending_sound, h.queue_sound⟩
  · rcases ht' with ht' | ht'
    · exact h.univ t' (.inl ht')
    · exact mem_singleton.mp ht' ▸ hUt
  · rcases ht' with ht' | ht'
    · rcases mem_cons.mp ((Heap.push_perm cheaper p.priced.items t).mem_iff.mp ht') with rfl | ht'
      · exact hUt
      · exact h.heap t' (.inl ht')
    · cases ht'
  · obtain rfl := mem_singleton.mp ht'
    exact ⟨a, ha, hfree⟩
  show (p.all.insert t.hash t)[hash]? = some t' ↔ t'.hash = hash ∧ (p.Pooled t' ∨ t' ∈ [t])
  rw [get_insert, mem_singleton]
  split_ifs with hh
  · constructor
    · intro h'
      cases h'
      exact ⟨hh, .inr rfl⟩
    rintro ⟨hh', hp | rfl⟩
    · have := (h.all hash t').mpr ⟨hh', .inl hp⟩
      rw [show p.all[hash]? = none from hh ▸ hnew] at this
      cases this
    · rfl
  refine (h.all hash t').trans (and_congr_right (fun hh' ↦ ?_))
  exact ⟨fun h' ↦ .inl (h'.resolve_right (by simp)),
    fun h' ↦ .inl (h'.resolve_right (fun he ↦ hh (he ▸ hh')))⟩

theorem Move.indexed (hU : Separated U) (h : Indexed U c)
    (hm : Move U fresh rt c c') : Indexed U c' := by
  cases hm with
  | @takePending p loose debt removed a l l' hl hs hst =>
    refine h.take (a := a) rfl rfl (fun b t ↦ listed_of_take hl hs) (fun b t hb ↦ hb) (fun t ht ↦ ?_)
      (fun b t hb ↦ ?_) hs.pairwise (sound_insert h.pending_sound (hst _ (h.pending_sound a l hl)))
      h.queue_sound
    · have hpt := (listed_iff hl).mpr (hs.mem_iff.mpr (.inl ht))
      exact ⟨h.pending_sender a t hpt, .inl hpt, fun t' ht' ↦
        ht'.elim (nonce_ne_of_removed hs ht) (fun ht' ↦ (h.apart a t t' hpt ht').symm)⟩
    · exact hb.elim (fun hb ↦ (listed_or_removed hl hs hb).imp_left .inl) (fun hb ↦ .inl (.inr hb))
  | @takeQueue p loose debt removed a l l' hl hs hst =>
    refine h.take (a := a) rfl rfl (fun b t hb ↦ hb) (fun b t ↦ listed_of_take hl hs) (fun t ht ↦ ?_)
      (fun b t hb ↦ ?_) hs.pairwise h.pending_sound
      (sound_insert h.queue_sound (hst _ (h.queue_sound a l hl)))
    · have hqt := (listed_iff hl).mpr (hs.mem_iff.mpr (.inl ht))
      exact ⟨h.queue_sender a t hqt, .inr hqt, fun t' ht' ↦
        ht'.elim (fun ht' ↦ h.apart a t' t ht' hqt) (nonce_ne_of_removed hs ht)⟩
    · exact hb.elim (fun hb ↦ .inl (.inl hb)) (fun hb ↦ (listed_or_removed hl hs hb).imp_left .inr)
  | @erasePending p loose debt a l hl he =>
    show Indexed U ⟨_, [] ++ loose, debt⟩
    refine h.take (a := a) rfl rfl (fun b t hb ↦ ((listed_erase p.pending).mp hb).2)
      (fun b t hb ↦ hb) (by simp) (fun b t hb ↦ .inl (hb.imp_left (fun hb ↦ ?_))) .nil
      (sound_erase h.pending_sound) h.queue_sound
    exact (listed_erase p.pending).mpr ⟨fun hba ↦ not_listed_of_isEmpty hl he (hba ▸ hb), hb⟩
  | @eraseQueue p loose debt a l hl he =>
    show Indexed U ⟨_, [] ++ loose, debt⟩
    refine h.take (a := a) rfl rfl (fun b t hb ↦ hb)
      (fun b t hb ↦ ((listed_erase p.queue).mp hb).2) (by simp)
      (fun b t hb ↦ .inl (hb.imp_right (fun hb ↦ ?_))) .nil h.pending_sound (sound_erase h.queue_sound)
    exact (listed_erase p.queue).mpr ⟨fun hba ↦ not_listed_of_isEmpty hl he (hba ▸ hb), hb⟩
  | @putPending p loose debt a t l ht hl hst =>
    have hfree := h.nonce_ne_of_loose ht
    exact h.put ht rfl rfl (.inl ⟨fun b t' ↦ listed_put hl (fun t' h' ↦ hfree t' (.inl h')), fun _ _ ↦ .rfl⟩)
      (sound_insert h.pending_sound hst) h.queue_sound
  | @putQueue p loose debt a t l ht hl hst =>
    have hfree := h.nonce_ne_of_loose ht
    exact h.put ht rfl rfl (.inr ⟨fun b t' ↦ listed_put hl (fun t' h' ↦ hfree t' (.inr h')), fun _ _ ↦ .rfl⟩)
      h.pending_sound (sound_insert h.queue_sound hst)
  | @forget p loose t =>
    refine h.leave hU rfl rfl rfl (fun t' ht' ↦ ?_)
    rcases ht' with ht' | ht'
    · rcases mem_items_removed ht' with ht' | ⟨hash, ht'⟩
      · exact h.heap t' (.inl ht')
      rw [getElem?_erase] at ht'
      split_ifs at ht'
      exact h.pooled_of_all ht'
    · cases ht'
  | @drop p loose debt debt' t ht =>
    exact h.leave hU rfl rfl rfl (fun t' ht' ↦ h.heap t'
      (ht'.imp_right (fun ht' ↦ ht.mem_iff.mpr (mem_cons_of_mem t ht'))))
  | @cleared p loose debt debt' t ht hn =>
    exact h.reprice rfl rfl rfl (fun t' ht' ↦ h.heap t'
      (ht'.imp_right (fun ht' ↦ ht.mem_iff.mpr (mem_cons_of_mem t ht'))))
  | enter ha hok hnew hfree => exact h.enter hok.1 ha hnew hfree
  | @popStale p loose debt items t hpop hn =>
    exact h.reprice rfl rfl rfl (fun t' ht' ↦ h.heap t'
      (ht'.imp_left (fun ht' ↦ hpop.mem_iff.mpr (mem_cons_of_mem t ht'))))
  | @popLive p loose debt items t hpop hn =>
    refine h.reprice rfl rfl rfl (fun t' ht' ↦ h.heap t' ?_)
    rcases ht' with ht' | ht'
    · exact .inl (hpop.mem_iff.mpr (mem_cons_of_mem t ht'))
    rcases mem_cons.mp ht' with rfl | ht'
    · exact .inl (hpop.mem_iff.mpr mem_cons_self)
    · exact .inr ht'
  | @pushLive p loose debt debt' items t ht hpush =>
    refine h.reprice rfl rfl rfl (fun t' ht' ↦ h.heap t' ?_)
    rcases ht' with ht' | ht'
    · rcases mem_cons.mp (hpush.mem_iff.mp ht') with rfl | ht'
      · exact .inr (ht.mem_iff.mpr mem_cons_self)
      · exact .inl ht'
    · exact .inr (ht.mem_iff.mpr (mem_cons_of_mem t ht'))
  | @other p p' loose debt hp hq ha hpr _ =>
    refine h.reprice hp hq ha (fun t ht ↦ h.heap t ?_)
    rw [hpr] at ht
    exact ht

end TxPool

end BjutEth.Pool
