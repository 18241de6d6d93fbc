import BjutEth.Chain.HeaderForks
import BjutEth.Chain.Indexer

namespace BjutEth.Chain

open Function List

theorem getElem?_of_lt_sharedBlocks (old new : List Header) (m : ℕ)
    (hm : m < sharedBlocks old new) : new[m]? = old[m]? := by
  induction old generalizing new m with
  | nil => simp [sharedBlocks] at hm
  | cons a as ih =>
    cases new with
    | nil => simp [sharedBlocks] at hm
    | cons b bs =>
      by_cases h : a = b
      · rw [sharedBlocks, if_pos h] at hm
        cases m with
        | zero => simp [h]
        | succ m => simpa using ih bs m (by omega)
      · simp [sharedBlocks, if_neg h] at hm

namespace ChainIndexer

theorem removeHeads_apply (sections stored i : ℕ) (heads : ℕ → Option Hash) :
    removeHeads sections stored heads i =
      if sections ≤ i ∧ i < stored then none else heads i := by
  induction stored generalizing heads with
  | zero => simp [removeHeads]
  | succ stored ih =>
    by_cases hlt : sections < stored + 1
    · rw [removeHeads, if_pos hlt, ih]
      by_cases hi : i = stored
      · subst hi
        rw [if_neg (by omega), if_pos (by omega), update_self]
      · rw [update_of_ne hi]
        exact if_congr (by omega) rfl rfl
    · rw [removeHeads, if_neg hlt, if_neg (by omega)]

def Tidy (c : ChainIndexer) : Prop := ∀ i, c.storedSections ≤ i → c.heads i = none

structure Cut (c c' : ChainIndexer) : Prop where
  stored_le : c'.storedSections ≤ c.storedSections
  tidy : c'.Tidy
  heads_eq : ∀ i < c'.storedSections, c'.heads i = c.heads i

variable {c : ChainIndexer}

theorem Cut.of_eq {c' : ChainIndexer} (hc : c.Tidy) (hs : c'.storedSections = c.storedSections)
    (hh : c'.heads = c.heads) :
    c.Cut c' where
  stored_le := hs.le
  tidy := by
    intro i hi
    rw [hh]
    exact hc i (hs ▸ hi)
  heads_eq := fun i _ ↦ congrFun hh i

theorem cut_setValidSections (hc : c.Tidy) {sections : ℕ} (hle : sections ≤ c.storedSections) :
    c.Cut (c.setValidSections sections) where
  stored_le := hle
  tidy := by
    intro i hi
    have hi' : sections ≤ i := hi
    simp only [setValidSections, removeHeads_apply]
    by_cases hlt : i < c.storedSections
    · rw [if_pos ⟨hi', hlt⟩]
    · rw [if_neg (fun h ↦ hlt h.2), hc i (by omega)]
  heads_eq := by
    intro i hi
    have hi' : i < sections := hi
    simp only [setValidSections, removeHeads_apply]
    rw [if_neg (by omega)]

theorem storedSections_revert (cfg : IndexerConfig) (c : ChainIndexer) (head : ℕ) :
    (c.revert cfg head).storedSections = min c.storedSections (head / cfg.sectionSize) := by
  simp only [revert, setValidSections, apply_ite storedSections]
  split_ifs <;> omega

theorem heads_revert (cfg : IndexerConfig) (c : ChainIndexer) (head : ℕ) :
    (c.revert cfg head).heads =
      (c.setValidSections (min c.storedSections (head / cfg.sectionSize))).heads := by
  simp only [revert, setValidSections, apply_ite storedSections, apply_ite heads, ite_self]
  split_ifs with hlt
  · rw [min_eq_right hlt.le]
  funext i
  rw [removeHeads_apply, if_neg (by omega)]

theorem cut_newHead {cfg : IndexerConfig} (hc : c.Tidy) (n : Notice) : c.Cut (c.newHead cfg n) := by
  by_cases hr : n.reorg = true
  · have hcut := cut_setValidSections hc (min_le_left c.storedSections (n.head / cfg.sectionSize))
    rw [newHead, if_pos hr]
    refine ⟨?_, ?_, ?_⟩
    · rw [storedSections_revert]
      exact hcut.stored_le
    · intro i hi
      rw [heads_revert]
      exact hcut.tidy i (by rwa [storedSections_revert] at hi)
    intro i hi
    rw [heads_revert]
    exact hcut.heads_eq i (by rwa [storedSections_revert] at hi)
  rw [newHead]
  apply Cut.of_eq hc
  · simp only [extend]
    split_ifs <;> rfl
  · simp only [extend]
    split_ifs <;> rfl

end ChainIndexer

variable {n : Notice}

namespace IndexerState

variable {hash : Header → Hash} {genesis : Header} {cfg : IndexerConfig}
  {s : IndexerState hash genesis}

def Announced (s : IndexerState hash genesis) (m : ℕ) : Prop :=
  ∃ n ∈ s.queue, n.reorg = true ∧ n.head < m

/-- `h` is the hash of the canonical block `m`, or the indexer will still hear that it is not. -/
def Current (s : IndexerState hash genesis) (m : ℕ) (h : Hash) : Prop :=
  (∃ header, s.canonical.headers[m]? = some header ∧ h = hash header) ∨ s.Announced m

theorem Current.change {m : ℕ} {h : Hash} (hcur : s.Current m h)
    {next : CanonicalChain hash genesis} {q : List Notice}
    (hq : Announces s.canonical.headers next.headers q) :
    Current { s with canonical := next, queue := s.queue ++ q } m h := by
  obtain ⟨header, hget, heq⟩ | ⟨n, hn, hr, hlt⟩ := hcur
  · cases hq with
    | extend hpre =>
      obtain ⟨tail, htail⟩ := hpre
      refine Or.inl ⟨header, ?_, heq⟩
      have hm : m < s.canonical.headers.length := (List.getElem?_eq_some_iff.mp hget).1
      rw [← hget]
      rw [← htail, getElem?_append_left hm]
    | reorg =>
      by_cases hm : m < sharedBlocks s.canonical.headers next.headers
      · refine Or.inl ⟨header, ?_, heq⟩
        rw [← hget]
        exact getElem?_of_lt_sharedBlocks _ _ m hm
      by_cases h0 : m = 0
      · -- both chains begin with the genesis header
        subst h0
        refine Or.inl ⟨header, ?_, heq⟩
        rw [← hget]
        rw [← head?_eq_getElem?, ← head?_eq_getElem?, next.head?_eq, s.canonical.head?_eq]
      · exact Or.inr ⟨_, mem_append_right _ mem_cons_self, rfl,
          show sharedBlocks s.canonical.headers next.headers - 1 < m by omega⟩
  · exact Or.inr ⟨n, mem_append_left _ hn, hr, hlt⟩

theorem Current.notify {m : ℕ} {h : Hash} (hcur : s.Current m h) {rest : List Notice}
    (hq : s.queue = n :: rest) (c : ChainIndexer) :
    Current { s with queue := rest, index := c } m h ∨ n.reorg = true ∧ n.head < m := by
  obtain hcan | ⟨n', hn', hr, hlt⟩ := hcur
  · exact Or.inl (Or.inl hcan)
  rw [hq] at hn'
  obtain rfl | hmem := mem_cons.mp hn'
  · exact Or.inr ⟨hr, hlt⟩
  · exact Or.inl (Or.inr ⟨n', hmem, hr, hlt⟩)

end IndexerState

def Work.lastRead (cfg : IndexerConfig) (w : Work) : Option (ℕ × Hash) :=
  match w.progress with
  | .reading number lastHead =>
    if number ≤ w.sec * cfg.sectionSize then none else some (number - 1, lastHead)
  | .done (some newHead) => some ((w.sec + 1) * cfg.sectionSize - 1, newHead)
  | _ => none

namespace IndexerState

variable {hash : Header → Hash} {genesis : Header} {cfg : IndexerConfig}
  {s : IndexerState hash genesis}

/-- What holds of the section in progress: unless one of the sections below it has been removed,
in which case it will be dropped, the last block read is current. -/
structure WorkInv (cfg : IndexerConfig) (s : IndexerState hash genesis) (w : Work) : Prop where
  stored_le : s.index.storedSections ≤ w.sec
  oldHead_ne : 0 < w.sec → w.oldHead ≠ 0
  bounds : ∀ number lastHead, w.progress = .reading number lastHead →
    w.sec * cfg.sectionSize ≤ number ∧ number ≤ (w.sec + 1) * cfg.sectionSize
  lastRead : ∀ m h, w.lastRead cfg = some (m, h) →
    m < (w.sec + 1) * cfg.sectionSize ∧ h ≠ 0 ∧
      (s.index.storedSections < w.sec ∨ s.Current m h)

structure Inv (cfg : IndexerConfig) (s : IndexerState hash genesis) : Prop where
  tidy : s.index.Tidy
  stored : ∀ i < s.index.storedSections, ∃ h, s.index.heads i = some h ∧ h ≠ 0 ∧
    s.Current ((i + 1) * cfg.sectionSize - 1) h
  work : ∀ w, s.work = some w → WorkInv cfg s w

theorem Initial.inv (hs : s.Initial cfg) : s.Inv cfg where
  tidy := hs.absent
  stored := by
    intro i hi
    obtain ⟨header, hget, hhead⟩ := hs.canonical i hi
    exact ⟨hash header, hhead, s.canonical.hash_ne_zero header (mem_of_getElem? hget),
      Or.inl ⟨header, hget, rfl⟩⟩
  work := by
    intro w hw
    rw [hs.work_eq] at hw
    cases hw

theorem Inv.change (hs : s.Inv cfg) {next : CanonicalChain hash genesis} {q : List Notice}
    (hq : Announces s.canonical.headers next.headers q) :
    Inv cfg { s with canonical := next, queue := s.queue ++ q } where
  tidy := hs.tidy
  stored := by
    intro i hi
    obtain ⟨h, hhead, hne, hcur⟩ := hs.stored i hi
    exact ⟨h, hhead, hne, hcur.change hq⟩
  work := by
    intro w hw
    have hi := hs.work w hw
    refine ⟨hi.stored_le, hi.oldHead_ne, hi.bounds, ?_⟩
    intro m h hm
    obtain ⟨hlt, hne, hcur⟩ := hi.lastRead m h hm
    exact ⟨hlt, hne, hcur.imp id (fun hc ↦ hc.change hq)⟩

theorem div_le_of_lt_sectionEnd (cfg : IndexerConfig) {a i : ℕ}
    (ha : a < (i + 1) * cfg.sectionSize - 1) : a / cfg.sectionSize ≤ i := by
  have hlt : a / cfg.sectionSize < i + 1 :=
    (Nat.div_lt_iff_lt_mul cfg.sectionSize_pos).mpr (by omega)
  omega

theorem storedSections_newHead (c : ChainIndexer) (hr : n.reorg = true) :
    (c.newHead cfg n).storedSections = min c.storedSections (n.head / cfg.sectionSize) := by
  rw [ChainIndexer.newHead, if_pos hr, ChainIndexer.storedSections_revert]

theorem Inv.notify (hs : s.Inv cfg) {rest : List Notice} (hq : s.queue = n :: rest)
    (hn : s.Undisturbed cfg n) : Inv cfg { s with queue := rest, index := s.index.newHead cfg n } := by
  have hcut : s.index.Cut (s.index.newHead cfg n) := ChainIndexer.cut_newHead hs.tidy n
  refine ⟨hcut.tidy, ?_, ?_⟩
  · intro i hi
    have hi' : i < (s.index.newHead cfg n).storedSections := hi
    obtain ⟨h, hhead, hne, hcur⟩ := hs.stored i (by have := hcut.stored_le; omega)
    refine ⟨h, (hcut.heads_eq i hi').trans hhead, hne, ?_⟩
    obtain hcur | ⟨hr, hlt⟩ := hcur.notify hq (s.index.newHead cfg n)
    · exact hcur
    -- the reorganisation would have removed section `i`
    have hle := div_le_of_lt_sectionEnd cfg hlt
    rw [storedSections_newHead s.index hr] at hi'
    omega
  intro w hw
  have hi := hs.work w hw
  have hst : (s.index.newHead cfg n).storedSections ≤ w.sec :=
    le_trans hcut.stored_le hi.stored_le
  refine ⟨hst, hi.oldHead_ne, hi.bounds, ?_⟩
  intro m h hm
  obtain ⟨hlt, hne, hcur⟩ := hi.lastRead m h hm
  refine ⟨hlt, hne, ?_⟩
  obtain hdrop | hcur := hcur
  · exact Or.inl (lt_of_le_of_lt hcut.stored_le hdrop)
  obtain hcur | ⟨hr, hlt'⟩ := hcur.notify hq (s.index.newHead cfg n)
  · exact Or.inr hcur
  -- the ancestor is not in this section, so a section below is removed
  have hbel : n.head < w.sec * cfg.sectionSize := by
    obtain hbel | habove := hn w hw hr
    · exact hbel
    · omega
  have hdiv : n.head / cfg.sectionSize < w.sec :=
    (Nat.div_lt_iff_lt_mul cfg.sectionSize_pos).mpr hbel
  left
  rw [storedSections_newHead s.index hr]
  omega

theorem Inv.of_index_eq (hs : s.Inv cfg) {t : IndexerState hash genesis}
    (hcan : t.canonical = s.canonical) (hque : t.queue = s.queue)
    (hstd : t.index.storedSections = s.index.storedSections)
    (hheads : t.index.heads = s.index.heads)
    (hwork : ∀ w, t.work = some w → WorkInv cfg s w) : t.Inv cfg := by
  have hcur : ∀ m h, s.Current m h → t.Current m h := by
    intro m h hc
    rw [Current, Announced, hcan, hque]
    exact hc
  refine ⟨?_, ?_, ?_⟩
  · intro i hi
    rw [hheads]
    exact hs.tidy i (hstd ▸ hi)
  · intro i hi
    obtain ⟨h, hhead, hne, hc⟩ := hs.stored i (hstd ▸ hi)
    exact ⟨h, hheads ▸ hhead, hne, hcur _ _ hc⟩
  intro w hw
  have hi := hwork w hw
  refine ⟨hstd ▸ hi.stored_le, hi.oldHead_ne, hi.bounds, ?_⟩
  intro m h hm
  obtain ⟨hlt, hne, hc⟩ := hi.lastRead m h hm
  exact ⟨hlt, hne, hstd ▸ hc.imp id (hcur m h)⟩

variable {w : Work}

theorem WorkInv.resetting (hle : s.index.storedSections ≤ w.sec) (hold : 0 < w.sec → w.oldHead ≠ 0)
    (hw : w.progress = .resetting) :
    WorkInv cfg s w where
  stored_le := hle
  oldHead_ne := hold
  bounds := by
    intro number lastHead hp
    rw [hw] at hp
    cases hp
  lastRead := by
    intro m h hm
    rw [Work.lastRead, hw] at hm
    cases hm

theorem WorkInv.failed (hi : WorkInv cfg s w) :
    WorkInv cfg s { w with progress := .done none } where
  stored_le := hi.stored_le
  oldHead_ne := hi.oldHead_ne
  bounds := by
    intro number lastHead hp
    cases hp
  lastRead := by
    intro m h hm
    cases hm

theorem WorkInv.reset {w : Work} (hi : WorkInv cfg s w) :
    WorkInv cfg s { w with progress := .reading (w.sec * cfg.sectionSize) w.oldHead } where
  stored_le := hi.stored_le
  oldHead_ne := hi.oldHead_ne
  bounds := by
    intro number lastHead hp
    obtain ⟨rfl, -⟩ := Progress.reading.inj hp
    exact ⟨le_rfl, Nat.mul_le_mul_right _ (Nat.le_succ _)⟩
  lastRead := by
    intro m h hm
    simp only [Work.lastRead, le_refl] at hm
    cases hm

theorem WorkInv.read {w : Work} (hi : WorkInv cfg s w) {number : ℕ} {lastHead : Hash}
    (hp : w.progress = .reading number lastHead) (hlt : number < (w.sec + 1) * cfg.sectionSize) :
    WorkInv cfg s { w with
      progress := processHeader hash s.canonical.headers number lastHead } := by
  cases hget : s.canonical.headers[number]? with
  | none =>
    simp only [processHeader, hget]
    exact hi.failed
  | some header =>
    by_cases hpar : header.parentHash = lastHead
    · simp only [processHeader, hget, hpar, ne_eq, not_true_eq_false, if_false]
      obtain ⟨hlo, -⟩ := hi.bounds number lastHead hp
      refine ⟨hi.stored_le, hi.oldHead_ne, ?_, ?_⟩
      · intro number' lastHead' hp'
        obtain ⟨rfl, -⟩ := Progress.reading.inj hp'
        exact ⟨by simp only; omega, hlt⟩
      intro m h hm
      simp only [Work.lastRead] at hm
      rw [if_neg (by omega)] at hm
      cases hm
      exact ⟨hlt, s.canonical.hash_ne_zero header (mem_of_getElem? hget),
        Or.inr (Or.inl ⟨header, hget, rfl⟩)⟩
    · simp only [processHeader, hget, ne_eq, hpar]
      exact hi.failed

theorem WorkInv.commit (hi : WorkInv cfg s w) {number : ℕ} {lastHead : Hash}
    (hp : w.progress = .reading number lastHead) (hle : (w.sec + 1) * cfg.sectionSize ≤ number) :
    WorkInv cfg s { w with progress := .done (some lastHead) } := by
  obtain ⟨-, hhi⟩ := hi.bounds number lastHead hp
  have hnum : number = (w.sec + 1) * cfg.sectionSize := le_antisymm hhi hle
  have hread : ¬ number ≤ w.sec * cfg.sectionSize := by
    have := cfg.sectionSize_pos
    rw [hnum, Nat.add_mul]
    omega
  refine ⟨hi.stored_le, hi.oldHead_ne, ?_, ?_⟩
  · intro number' lastHead' hp'
    cases hp'
  intro m h hm
  apply hi.lastRead
  rw [← hm]
  simp only [Work.lastRead, hp]
  rw [if_neg hread, hnum]

section

variable (hs : s.Inv cfg)

include hs

theorem storedSections_eq_of_stored (hw : s.work = some w)
    (hcond : 0 < w.sec ∧ w.oldHead = s.index.sectionHead (w.sec - 1) ∨ w.sec = 0 ∧ w.oldHead = w.initParent) :
    s.index.storedSections = w.sec := by
  have hi := hs.work w hw
  have hle := hi.stored_le
  obtain ⟨hpos, hold⟩ | ⟨hzero, -⟩ := hcond
  · by_contra hne
    apply hi.oldHead_ne hpos
    rw [hold, ChainIndexer.sectionHead, hs.tidy (w.sec - 1) (by omega), Option.getD_none]
  · omega

theorem Inv.finish {newHead : Option Hash} (hw : s.work = some w)
    (hp : w.progress = .done newHead) (timers : ℕ) :
    Inv cfg { s with index := s.index.finish cfg w newHead, work := none, timers := timers } := by
  have hnone : ∀ w', (none : Option Work) = some w' → WorkInv cfg s w' := by
    intro w' hw'
    cases hw'
  cases newHead with
  | none => exact hs.of_index_eq rfl rfl rfl rfl hnone
  | some h =>
    by_cases hcond : 0 < w.sec ∧ w.oldHead = s.index.sectionHead (w.sec - 1) ∨
        w.sec = 0 ∧ w.oldHead = w.initParent
    · have hst := storedSections_eq_of_stored hs hw hcond
      obtain ⟨-, hne, hcur⟩ := (hs.work w hw).lastRead ((w.sec + 1) * cfg.sectionSize - 1) h
        (by rw [Work.lastRead, hp])
      have hcur : s.Current ((w.sec + 1) * cfg.sectionSize - 1) h :=
        hcur.resolve_left (by omega)
      have hheads : ∀ i, (s.index.finish cfg w (some h)).heads i =
          Function.update s.index.heads w.sec (some h) i := by
        intro i
        simp only [ChainIndexer.finish, if_pos hcond, ChainIndexer.setValidSections,
          ChainIndexer.setSectionHead, ChainIndexer.removeHeads_apply]
        rw [if_neg (by omega)]
      have hstd : (s.index.finish cfg w (some h)).storedSections = w.sec + 1 := by
        simp only [ChainIndexer.finish, if_pos hcond, ChainIndexer.setValidSections]
      refine ⟨?_, ?_, ?_⟩
      · intro i hi
        have hi' : w.sec + 1 ≤ i := hstd ▸ hi
        rw [hheads, update_of_ne (by omega)]
        exact hs.tidy i (by omega)
      · intro i hi
        have hi' : i < w.sec + 1 := hstd ▸ hi
        rw [hheads]
        by_cases hiw : i = w.sec
        · subst hiw
          exact ⟨h, update_self .., hne, hcur⟩
        · rw [update_of_ne hiw]
          exact hs.stored i (by omega)
      · intro w' hw'
        cases hw'
    have hfin : s.index.finish cfg w (some h) =
        { s.index with knownSections := s.index.storedSections } := if_neg hcond
    rw [hfin]
    exact hs.of_index_eq rfl rfl rfl rfl hnone

theorem Inv.resetFails (hw : s.work = some w) : Inv cfg { s with
      index := s.index.setValidSections 0
      work := some { w with progress := .done none } } := by
  have hcut := ChainIndexer.cut_setValidSections hs.tidy (Nat.zero_le _)
  refine ⟨hcut.tidy, ?_, ?_⟩
  · intro i hi
    exact absurd hi (Nat.not_lt_zero i)
  intro w' hw'
  cases hw'
  have hf := (hs.work w hw).failed
  refine ⟨Nat.zero_le _, hf.oldHead_ne, hf.bounds, ?_⟩
  intro m h hm
  cases hm

theorem Inv.sectionHead_ne_zero (hpos : 0 < s.index.storedSections) :
    s.index.sectionHead (s.index.storedSections - 1) ≠ 0 := by
  obtain ⟨h, hhead, hne, -⟩ := hs.stored (s.index.storedSections - 1) (by omega)
  rw [ChainIndexer.sectionHead, hhead]
  exact hne

theorem Inv.step {t : IndexerState hash genesis}
    (hst : Step cfg (Undisturbed cfg) s t) : t.Inv cfg := by
  cases hst with
  | change next q hq => exact hs.change hq
  | notify n rest hq hn => exact hs.notify hq hn
  | idle hwork hup hle => exact hs.of_index_eq rfl rfl rfl rfl hs.work
  | startFirst hwork hup hlt hzero =>
    refine hs.of_index_eq rfl rfl rfl rfl ?_
    intro w hw
    cases hw
    exact WorkInv.resetting hzero.le (fun h ↦ absurd h (lt_irrefl 0)) rfl
  | startNext hwork hup hlt hpos =>
    refine hs.of_index_eq rfl rfl rfl rfl ?_
    intro w hw
    cases hw
    exact WorkInv.resetting le_rfl (fun _ ↦ hs.sectionHead_ne_zero hpos) rfl
  | reset w hw hp =>
    refine hs.of_index_eq rfl rfl rfl rfl ?_
    intro w' hw'
    cases hw'
    exact (hs.work w hw).reset
  | resetFails w hw hp => exact hs.resetFails hw
  | read w number lastHead hw hp hlt =>
    refine hs.of_index_eq rfl rfl rfl rfl ?_
    intro w' hw'
    cases hw'
    exact (hs.work w hw).read hp hlt
  | commit w number lastHead hw hp hle =>
    refine hs.of_index_eq rfl rfl rfl rfl ?_
    intro w' hw'
    cases hw'
    exact (hs.work w hw).commit hp hle
  | commitFails w number lastHead hw hp hle =>
    refine hs.of_index_eq rfl rfl rfl rfl ?_
    intro w' hw'
    cases hw'
    exact (hs.work w hw).failed
  | finish w newHead hw hp => exact hs.finish hw hp _
  | timer timers ht => exact hs.of_index_eq rfl rfl rfl rfl hs.work

end

theorem Reachable.inv (h : Reachable cfg (Undisturbed cfg) s) : s.Inv cfg := by
  induction h with
  | initial s hs => exact hs.inv
  | step s t _ hst ih => exact ih.step hst

open HeaderChain (plainHash plainGenesis childOf)

def pairs : IndexerConfig := ⟨2, 0, by decide⟩

def rival1 : Header := childOf plainGenesis 3 []

end IndexerState

end BjutEth.Chain
