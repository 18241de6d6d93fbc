import BjutEth.Chain.HeaderForks

namespace BjutEth.Chain.HeaderChain

open Function Outcome Nat
open Function (update)
open Option (some)

variable {hash : Header → Hash} {genesis : Header} {hc : HeaderChain}

def cut (hc : HeaderChain) (head : ℕ) : HeaderChain :=
  { hc with
    headers := fun k ↦ if head < k.1 ∧ hc.canonical k.1 = some k.2 then none else hc.headers k
    tds := fun k ↦ if head < k.1 ∧ hc.canonical k.1 = some k.2 then none else hc.tds k }

variable {head n : ℕ} {h : Hash} {hd : Header}

theorem cut_eq_self (h : Closed hash hc) (hle : hc.currentHeader.number ≤ head) : hc.cut head = hc := by
  have hfree : ∀ k : ℕ × Hash, ¬ (head < k.1 ∧ hc.canonical k.1 = some k.2) := by
    rintro k ⟨hk, hcan⟩
    rw [h.canonical_of_lt (by omega)] at hcan
    cases hcan
  unfold cut
  simp only [if_neg (hfree _)]

theorem cut_pred (hcan : hc.canonical (n + 1) = some h) :
    hc.cut n = { hc.cut (n + 1) with
      headers := update (hc.cut (n + 1)).headers (n + 1, h) none
      tds := update (hc.cut (n + 1)).tds (n + 1, h) none } := by
  have key : ∀ {β : Type} (f : ℕ × Hash → Option β),
      (fun k : ℕ × Hash ↦ if n < k.1 ∧ hc.canonical k.1 = some k.2 then none else f k) =
        update (fun k ↦ if n + 1 < k.1 ∧ hc.canonical k.1 = some k.2 then none else f k)
          (n + 1, h) none := by
    intro β f
    funext k
    by_cases hk : k = (n + 1, h)
    · subst hk
      rw [update_self, if_pos ⟨lt_succ_self n, hcan⟩]
    rw [update_of_ne hk]
    by_cases hcut : n + 1 < k.1 ∧ hc.canonical k.1 = some k.2
    · rw [if_pos hcut, if_pos ⟨by omega, hcut.2⟩]
    rw [if_neg hcut, if_neg]
    rintro ⟨hlt, hk2⟩
    have hk1 : k.1 = n + 1 := by
      by_contra hne
      exact hcut ⟨by omega, hk2⟩
    rw [hk1, hcan] at hk2
    exact hk (Prod.ext hk1 (some.inj hk2).symm)
  unfold cut
  simp only [← key]

theorem dropHeaders_eq (h : Closed hash hc) {fuel : ℕ} {hdr : Header}
    (hhdr : hc.headers (n, hash hdr) = some hdr) (hcan : hc.canonical n = some (hash hdr))
    (hfuel : n < fuel) (hhead : head < n) :
    ∃ top, hc.headers (head, hash top) = some top ∧ hc.canonical head = some (hash top) ∧
      dropHeaders hash head fuel (hc.cut n) (some hdr) = .ok (hc.cut head, some top) := by
  induction n generalizing fuel hdr with
  | zero => exact absurd hhead (Nat.not_lt_zero _)
  | succ n ih =>
    obtain ⟨fuel, rfl⟩ := exists_eq_succ_of_ne_zero (Nat.ne_zero_of_lt hfuel)
    obtain ⟨-, hnum, -⟩ := h.keyed hhdr
    have hlink : hc.link (n + 1) (hash hdr) = some hdr.parentHash :=
      link_eq_some.mpr ⟨hdr, hhdr, rfl⟩
    -- the parent is the canonical header below
    have hpcan : hc.canonical n = some hdr.parentHash := by
      rw [h.canonical] at hcan ⊢
      rw [lineage_eq_of_mem hcan (le_succ n), lineage_succ hlink (Nat.ne_of_lt (lt_succ_self n)),
        lineage_self]
    obtain ⟨p, hp, hrp⟩ := h.rooted hhdr
    obtain rfl : hdr.parentHash = p := some.inj (hlink.symm.trans hp)
    obtain ⟨parent, hpar⟩ := Rooted.header hrp
    obtain ⟨hhash, -, -⟩ := h.keyed hpar
    have hprev : prevNumber hdr.number = n := by
      rw [hnum, prevNumber]
      rfl
    have hget : (hc.cut n).headers (n, hdr.parentHash) = some parent := by
      have hkeep : ¬ (n < n ∧ hc.canonical n = some hdr.parentHash) := fun hlt ↦ lt_irrefl n hlt.1
      exact (if_neg hkeep).trans hpar
    have hrnd : dropHeaders hash head (fuel + 1) (hc.cut (n + 1)) (some hdr) =
        dropHeaders hash head fuel (hc.cut n) (some parent) := by
      rw [dropHeaders, if_pos (by omega), hnum, ← hget, cut_pred hcan, ← hnum, hprev]
    rw [hrnd]
    have hpar' : hc.headers (n, hash parent) = some parent := by rw [hhash]; exact hpar
    have hpcan' : hc.canonical n = some (hash parent) := by rw [hhash]; exact hpcan
    rcases Nat.lt_or_ge head n with hlt | hge
    · exact ih hpar' hpcan' (by omega) hlt
    obtain rfl : head = n := by omega
    obtain ⟨-, hpnum, -⟩ := h.keyed hpar
    obtain ⟨fuel, rfl⟩ := exists_eq_succ_of_ne_zero (show fuel ≠ 0 by omega)
    refine ⟨parent, hpar', hpcan', ?_⟩
    rw [dropHeaders, if_neg (by omega)]

def rewound (hash : Header → Hash) (hc : HeaderChain) (head : ℕ) (top : Header) : HeaderChain :=
  { hc.cut head with
    canonical := fun i ↦ if head < i ∧ i ≤ hc.currentHeader.number then none else hc.canonical i
    currentHeader := top
    currentHeaderHash := hash top }

theorem setHead_returns (h : Closed hash hc) (head : ℕ) :
    ∃ top, hc.headers (min head hc.currentHeader.number, hash top) = some top ∧
      hc.canonical (min head hc.currentHeader.number) = some (hash top) ∧
      Returns (fun fuel ↦ hc.setHead hash fuel head) (hc.rewound hash head top) := by
  obtain ⟨hhash, -, -⟩ := h.keyed h.current
  have hcur : hc.headers (hc.currentHeader.number, hash hc.currentHeader) = some hc.currentHeader := by
    rw [hhash]
    exact h.current
  have hcan : hc.canonical hc.currentHeader.number = some (hash hc.currentHeader) := by
    rw [hhash, h.canonical, lineage_self]
  rcases Nat.lt_or_ge head hc.currentHeader.number with hlt | hge
  · rw [min_eq_left hlt.le]
    have hrun := fun fuel (hfuel : hc.currentHeader.number < fuel) ↦
      dropHeaders_eq h hcur hcan hfuel hlt
    obtain ⟨top, htop, htcan, -⟩ := hrun _ (lt_succ_self _)
    refine ⟨top, htop, htcan, hc.currentHeader.number + 1, fun fuel hfuel ↦ ?_⟩
    obtain ⟨top', htop', htcan', hdrop⟩ := hrun fuel hfuel
    have hsame : hash top' = hash top := some.inj (htcan'.symm.trans htcan)
    rw [hsame] at htop'
    obtain rfl : top' = top := some.inj (htop'.symm.trans htop)
    rw [cut_eq_self h le_rfl] at hdrop
    simp only [setHead, hdrop]
    rfl
  rw [min_eq_right hge]
  refine ⟨hc.currentHeader, hcur, hcan, 1, fun fuel hfuel ↦ ?_⟩
  obtain ⟨fuel, rfl⟩ := exists_eq_succ_of_ne_zero (show fuel ≠ 0 by omega)
  have hdrop : dropHeaders hash head (fuel + 1) hc (some hc.currentHeader) =
      .ok (hc, some hc.currentHeader) := by
    rw [dropHeaders, if_neg (by omega)]
  simp only [setHead, hdrop]
  rw [rewound, cut_eq_self h hge]
  rfl

def NoOrphans (hc : HeaderChain) (head : ℕ) : Prop :=
  ∀ {n h hd}, hc.headers (n + 1, h) = some hd → head < n → hc.canonical n = some hd.parentHash →
    hc.canonical (n + 1) = some h

theorem cut_headers_eq_some {k : ℕ × Hash} :
    (hc.cut head).headers k = some hd ↔
      hc.headers k = some hd ∧ ¬ (head < k.1 ∧ hc.canonical k.1 = some k.2) := by
  change (if head < k.1 ∧ hc.canonical k.1 = some k.2 then none else hc.headers k) = some hd ↔ _
  split
  · next hcut => exact ⟨by simp, fun he ↦ absurd hcut he.2⟩
  · next hcut => exact ⟨fun he ↦ ⟨he, hcut⟩, fun he ↦ he.1⟩

theorem headers_of_cut (k : ℕ × Hash) (hd : Header) (h : (hc.cut head).headers k = some hd) :
    hc.headers k = some hd :=
  (cut_headers_eq_some.mp h).1

theorem rooted_cut (hno : NoOrphans hc head) {root : Hash} (hr : Rooted hc.link root n h)
    (hkeep : ¬ (head < n ∧ hc.canonical n = some h)) : Rooted (hc.cut head).link root n h := by
  induction n generalizing h with
  | zero =>
    obtain ⟨hd, hhd⟩ := Rooted.header hr
    have hlink : (hc.cut head).link 0 h = some hd.parentHash :=
      link_eq_some.mpr ⟨hd, cut_headers_eq_some.mpr ⟨hhd, hkeep⟩, rfl⟩
    exact ⟨hr.1, Option.isSome_of_eq_some hlink⟩
  | succ n ih =>
    obtain ⟨p, hp, hrp⟩ := hr
    obtain ⟨hd, hhd, rfl⟩ := link_eq_some.mp hp
    refine ⟨hd.parentHash,
      link_eq_some.mpr ⟨hd, cut_headers_eq_some.mpr ⟨hhd, hkeep⟩, rfl⟩, ih hrp ?_⟩
    rintro ⟨hlt, hcan⟩
    exact hkeep ⟨by omega, hno hhd hlt hcan⟩

theorem closed_rewound (h : Closed hash hc) (hno : NoOrphans hc head) {top : Header}
    (htop : hc.headers (min head hc.currentHeader.number, hash top) = some top)
    (hcan : hc.canonical (min head hc.currentHeader.number) = some (hash top)) :
    Closed hash (hc.rewound hash head top) := by
  obtain ⟨-, hnum, -⟩ := h.keyed htop
  have hkept : ¬ (head < min head hc.currentHeader.number ∧
      hc.canonical (min head hc.currentHeader.number) = some (hash top)) :=
    fun hlt ↦ absurd hlt.1 (not_lt.mpr (min_le_left _ _))
  have hrooted : Rooted (hc.cut head).link (hash hc.genesisHeader)
      (min head hc.currentHeader.number) (hash top) := rooted_cut hno (h.rooted htop) hkept
  refine ⟨⟨?_, ?_, ?_, ?_⟩, ?_, ?_⟩
  · intro n k hd hk
    exact h.keyed (headers_of_cut _ _ hk)
  · intro n k hd hk
    obtain ⟨hk, hkeep⟩ := cut_headers_eq_some.mp hk
    exact rooted_cut hno (h.rooted hk) hkeep
  · intro n k
    by_cases hcut : head < n ∧ hc.canonical n = some k
    · have hnone : (hc.cut head).headers (n, k) = none := if_pos hcut
      exact (if_pos hcut).trans (work_of_none hnone).symm
    have htd : (hc.rewound hash head top).tds (n, k) = hc.tds (n, k) := if_neg hcut
    rw [htd, h.td]
    cases hk : hc.headers (n, k) with
    | none =>
      have hnone : (hc.cut head).headers (n, k) = none := (if_neg hcut).trans hk
      exact (work_of_none hk).trans (work_of_none hnone).symm
    | some hd =>
      obtain ⟨t, ht⟩ := exists_work (rooted_cut hno (h.rooted hk) hcut)
      exact (work_mono headers_of_cut ht).trans ht.symm
  · have hzero : ¬ (head < 0 ∧ hc.canonical 0 = some (hash hc.genesisHeader)) :=
      fun hlt ↦ absurd hlt.1 (Nat.not_lt_zero _)
    exact cut_headers_eq_some.mpr ⟨h.root, hzero⟩
  · change (hc.cut head).headers (top.number, hash top) = some top
    rw [hnum]
    exact cut_headers_eq_some.mpr ⟨htop, hkept⟩
  change (fun i ↦ if head < i ∧ i ≤ hc.currentHeader.number then none else hc.canonical i) =
    lineage (hc.cut head).link top.number (hash top)
  rw [hnum, ← hrooted.lineage_eq (link_mono headers_of_cut)]
  funext i
  by_cases hi : i ≤ min head hc.currentHeader.number
  · rw [if_neg (by omega)]
    rw [h.canonical] at hcan ⊢
    exact lineage_eq_of_mem hcan hi
  rw [lineage_of_lt (by omega)]
  split
  · rfl
  · next hout => exact h.canonical_of_lt (by omega)

/-- Runs of `WriteHeader` and `SetHead`. The numbers of the headers continue those of their
parents, and each `SetHead` meets a condition. -/
inductive Mixed (U : Universe hash genesis) (ok : HeaderChain → ℕ → Prop) : HeaderChain → Prop
  | new : Mixed U ok (.new hash genesis)
  | writeHeader {hc : HeaderChain} {header : Header} {tie : Bool} {r : WriteStatus × HeaderChain}
      (h : Mixed U ok hc) (hU : header ∈ U.carrier)
      (hn : ∀ n p, hc.headers (n, header.parentHash) = some p → header.number = n + 1)
      (hr : Returns (fun fuel ↦ hc.writeHeader hash fuel tie header) r) : Mixed U ok r.2
  | setHead {hc hc' : HeaderChain} {head : ℕ} (h : Mixed U ok hc) (hok : ok hc head)
      (hr : Returns (fun fuel ↦ hc.setHead hash fuel head) hc') : Mixed U ok hc'

theorem Inv.parent_of_returns {U : Universe hash genesis} (h : Inv U hc) {header : Header}
    {tie : Bool} {r : WriteStatus × HeaderChain}
    (hn : ∀ n p, hc.headers (n, header.parentHash) = some p → header.number = n + 1)
    (hr : Returns (fun fuel ↦ hc.writeHeader hash fuel tie header) r) :
    ∃ parent, hc.headers (parent.number, header.parentHash) = some parent ∧
      header.number = parent.number + 1 := by
  obtain ⟨n, hr⟩ := hr
  have hr := hr n le_rfl
  cases htd : hc.tds (prevNumber header.number, header.parentHash) with
  | none =>
    simp only [HeaderChain.writeHeader, htd] at hr
    cases hr
  | some t =>
    cases hp : hc.headers (prevNumber header.number, header.parentHash) with
    | none =>
      rw [h.td, work_of_none hp] at htd
      cases htd
    | some parent =>
      obtain ⟨-, hnum, -⟩ := h.keyed hp
      refine ⟨parent, ?_, ?_⟩
      · rw [hnum]
        exact hp
      · rw [hnum]
        exact hn _ _ hp

theorem Mixed.inv {U : Universe hash genesis} (h : Mixed U (fun hc head ↦ NoOrphans hc head) hc) :
    Inv U hc := by
  induction h with
  | new => exact inv_new U
  | writeHeader h hU hn hr ih =>
    obtain ⟨parent, hp, hnum⟩ := ih.parent_of_returns hn hr
    exact ih.writeHeader hU hp hnum hr
  | @setHead hc hc' head h hok hr ih =>
    obtain ⟨top, htop, hcan, hret⟩ := setHead_returns ih.toClosed head
    rw [hr.unique hret]
    exact ⟨closed_rewound ih.toClosed hok htop hcan, fun hk ↦ ih.mem (headers_of_cut _ _ hk),
      ih.genesisHeader⟩

/-- A store that headers can be written to: parents and their difficulties are there, the
canonical numbers are taken by stored headers, and no header with a stored parent runs into a
missing one. -/
structure Usable (U : Universe hash genesis) (hc : HeaderChain) : Prop where
  parents : ∀ {n h hd}, hc.headers (n, h) = some hd → hd ≠ genesis →
    ∃ p t, hc.headers (p.number, hd.parentHash) = some p ∧ hd.number = p.number + 1 ∧
      hc.tds (p.number, hd.parentHash) = some t
  numbered : ∀ n ≤ hc.currentHeader.number, ∃ h hd, hc.canonical n = some h ∧
    hc.headers (n, h) = some hd
  safe : ∀ {header p : Header} {t : ℕ} (tie : Bool), header ∈ U.carrier →
    header.number = p.number + 1 → hc.headers (p.number, header.parentHash) = some p →
    hc.tds (p.number, header.parentHash) = some t →
    ∃ r, Returns (fun fuel ↦ hc.writeHeader hash fuel tie header) r

theorem mixed_usable (U : Universe hash genesis) (h : Mixed U (fun hc head ↦ NoOrphans hc head) hc) :
    Usable U hc := by
  have hinv := h.inv
  refine ⟨?_, ?_, ?_⟩
  · intro n k hd hk hne
    have hrooted := hinv.rooted hk
    obtain ⟨hhash, hnum, -⟩ := hinv.keyed hk
    cases n with
    | zero =>
      obtain ⟨rfl, -⟩ := hrooted
      rw [hinv.genesisHeader] at hhash
      exact absurd (U.injOn (hinv.mem hk) U.genesis_mem hhash) hne
    | succ n =>
      obtain ⟨q, hq, hrq⟩ := hrooted
      obtain ⟨hd', hk', rfl⟩ := link_eq_some.mp hq
      obtain rfl : hd = hd' := some.inj (hk.symm.trans hk')
      obtain ⟨p, hp⟩ := Rooted.header hrq
      obtain ⟨-, hpn, -⟩ := hinv.keyed hp
      obtain ⟨t, ht⟩ := exists_work hrq
      refine ⟨p, t, ?_, ?_, ?_⟩
      · rw [hpn]
        exact hp
      · rw [hpn, hnum]
      · rw [hpn, hinv.td, ht]
  · intro n hn
    obtain ⟨q, hq, hrq⟩ := hinv.canonical_of_le hn
    obtain ⟨hd, hhd⟩ := Rooted.header hrq
    exact ⟨q, hd, hq, hhd⟩
  intro header p t tie hU hn hp _
  obtain ⟨w, hw⟩ := exists_work (hinv.rooted hp)
  obtain ⟨cur, hcur⟩ := exists_work hinv.current_rooted
  exact ⟨_, writeHeader_returns hinv.toClosed (hinv.fits hU hp hn) hw hcur tie⟩

section Fork

variable {U : Universe hash genesis} {ok : HeaderChain → ℕ → Prop} {header : Header}

theorem Inv.number_eq (h : Inv U hc) {parent : Header}
    (hp : hc.headers (parent.number, header.parentHash) = some parent)
    (hn : header.number = parent.number + 1) :
    ∀ n p, hc.headers (n, header.parentHash) = some p → header.number = n + 1 := by
  intro n p hk
  obtain ⟨hp1, -, -⟩ := h.keyed hp
  obtain ⟨hk1, hk2, -⟩ := h.keyed hk
  obtain rfl : p = parent := U.injOn (h.mem hk) (h.mem hp) (hk1.trans hp1.symm)
  rw [hn, hk2]

variable (hm : Mixed U ok hc ∧ Inv U hc) (parent : Header) (t cur : ℕ)
  (hU : header ∈ U.carrier) (hp : hc.headers (parent.number, header.parentHash) = some parent)
  (hn : header.number = parent.number + 1) (ht : hc.work parent.number header.parentHash = some t)
  (hcur : hc.work hc.currentHeader.number hc.currentHeaderHash = some cur)

include hm hU hp hn ht hcur

theorem Mixed.grow (hlt : cur < header.difficulty + t) :
    Mixed U ok ((hc.store hash header (header.difficulty + t)).adopt hash header) ∧
      Inv U ((hc.store hash header (header.difficulty + t)).adopt hash header) := by
  have hr := writeHeader_returns hm.2.toClosed (hm.2.fits hU hp hn) ht hcur false
  rw [if_pos (.inl hlt)] at hr
  exact ⟨hm.1.writeHeader hU (hm.2.number_eq hp hn) hr, hm.2.writeHeader hU hp hn hr⟩

theorem Mixed.side (hlt : header.difficulty + t < cur) :
    Mixed U ok (hc.store hash header (header.difficulty + t)) ∧
      Inv U (hc.store hash header (header.difficulty + t)) := by
  have hr := writeHeader_returns hm.2.toClosed (hm.2.fits hU hp hn) ht hcur false
  rw [if_neg (by omega)] at hr
  exact ⟨hm.1.writeHeader hU (hm.2.number_eq hp hn) hr, hm.2.writeHeader hU hp hn hr⟩

end Fork

def trunk1 : Header := childOf plainGenesis 2 []
def trunk2 : Header := childOf trunk1 2 []
def trunk3 : Header := childOf trunk2 2 []
def side3 : Header := childOf trunk2 1 []
def side4 : Header := childOf side3 9 []

theorem fork_nodup :
    ((plainGenesis :: [trunk1, trunk2, trunk3, side3, side4]).map plainHash).Nodup := by decide

theorem fork_ne_zero :
    ∀ hd ∈ plainGenesis :: [trunk1, trunk2, trunk3, side3, side4], plainHash hd ≠ 0 := by decide

def forkUniverse : Universe plainHash plainGenesis :=
  plainUniverse [trunk1, trunk2, trunk3, side3, side4] fork_nodup fork_ne_zero

def trunkChain1 : HeaderChain :=
  ((new plainHash plainGenesis).store plainHash trunk1 3).adopt plainHash trunk1
def trunkChain2 : HeaderChain := (trunkChain1.store plainHash trunk2 5).adopt plainHash trunk2
def trunkChain3 : HeaderChain := (trunkChain2.store plainHash trunk3 7).adopt plainHash trunk3
def forkChain : HeaderChain := trunkChain3.store plainHash side3 6

theorem mem_fork (h : hd ∈ plainGenesis :: [trunk1, trunk2, trunk3, side3, side4]) :
    hd ∈ forkUniverse.carrier := h

theorem mixed_trunkChain2 (ok : HeaderChain → ℕ → Prop) :
    Mixed forkUniverse ok trunkChain2 ∧ Inv forkUniverse trunkChain2 := by
  have h1 : Mixed forkUniverse ok trunkChain1 ∧ Inv forkUniverse trunkChain1 :=
    Mixed.grow ⟨.new, inv_new _⟩ plainGenesis 1 1 (mem_fork (by decide)) (by decide) (by decide)
      (by decide) (by decide) (by decide)
  exact Mixed.grow h1 trunk1 3 3 (mem_fork (by decide)) (by decide) (by decide) (by decide)
    (by decide) (by decide)

theorem number_le_two (hk : trunkChain2.headers (n, h) = some hd) : n ≤ 2 := by
  by_contra hlt
  have hne : ∀ k : ℕ × Hash, k.1 ≤ 2 → (n, h) ≠ k := by
    rintro k hle rfl
    exact hlt hle
  have hall : trunkChain2.headers = update (update (update (fun _ ↦ none)
      (0, plainHash plainGenesis) (some plainGenesis)) (1, plainHash trunk1) (some trunk1))
      (2, plainHash trunk2) (some trunk2) := rfl
  rw [hall, update_of_ne (hne _ (by decide)), update_of_ne (hne _ (by decide)),
    update_of_ne (hne _ (by decide))] at hk
  cases hk

theorem noOrphans_trunkChain2 : NoOrphans trunkChain2 1 := by
  intro n h hd hk hlt _
  have := number_le_two hk
  omega

/-- The second header is deleted again and can be written once more. -/
theorem mixed_usable_trunk :
    ∃ hc, Mixed forkUniverse (fun hc head ↦ NoOrphans hc head) hc ∧
      hc.headers (2, plainHash trunk2) = none ∧ hc.currentHeader = trunk1 ∧
      Usable forkUniverse hc := by
  obtain ⟨hrun, hinv⟩ := mixed_trunkChain2 (fun hc head ↦ NoOrphans hc head)
  obtain ⟨top, htop, hcan, hret⟩ := setHead_returns hinv.toClosed 1
  have htop1 : plainHash top = plainHash trunk1 :=
    some.inj (hcan.symm.trans (by decide : trunkChain2.canonical 1 = _))
  obtain rfl : top = trunk1 := by
    refine forkUniverse.injOn (hinv.mem htop) (mem_fork (by decide)) htop1
  have hmixed := hrun.setHead noOrphans_trunkChain2 hret
  exact ⟨_, hmixed, by decide, rfl, mixed_usable _ hmixed⟩

/-- After a rewind below a fork, the side branch has lost its parent, and the next header on
it stops the node. -/
theorem not_usable_orphan :
    ∃ hc, Mixed forkUniverse (fun _ _ ↦ True) hc ∧
      hc.headers (3, plainHash side3) = some side3 ∧ hc.headers (2, side3.parentHash) = none ∧
      hc.headers (3, side4.parentHash) = some side3 ∧ hc.tds (3, side4.parentHash) = some 6 ∧
      hc.writeHeader plainHash 10 false side4 = .error .panic ∧ ¬ Usable forkUniverse hc := by
  have h3 : Mixed forkUniverse (fun _ _ ↦ True) trunkChain3 ∧ Inv forkUniverse trunkChain3 :=
    Mixed.grow (mixed_trunkChain2 _) trunk2 5 5 (mem_fork (by decide)) (by decide) (by decide)
      (by decide) (by decide) (by decide)
  have hfork : Mixed forkUniverse (fun _ _ ↦ True) forkChain ∧ Inv forkUniverse forkChain :=
    Mixed.side h3 trunk2 5 7 (mem_fork (by decide)) (by decide) (by decide) (by decide)
      (by decide) (by decide)
  obtain ⟨hrun, hinv⟩ := hfork
  obtain ⟨top, htop, hcan, hret⟩ := setHead_returns hinv.toClosed 1
  have htop1 : plainHash top = plainHash trunk1 :=
    some.inj (hcan.symm.trans (by decide : forkChain.canonical 1 = _))
  obtain rfl : top = trunk1 :=
    forkUniverse.injOn (hinv.mem htop) (mem_fork (by decide)) htop1
  have hmixed := hrun.setHead trivial hret
  have hnone : (rewound plainHash forkChain 1 trunk1).headers (2, side3.parentHash) = none := by decide
  refine ⟨_, hmixed, by decide, hnone, by decide, by decide, rfl, ?_⟩
  intro husable
  obtain ⟨p, t, hp, hnum, -⟩ := husable.parents (n := 3) (h := plainHash side3) (by decide)
    (show side3 ≠ plainGenesis by decide)
  have hpn : p.number = 2 := by
    have : side3.number = 3 := rfl
    omega
  rw [hpn] at hp
  cases hp

end BjutEth.Chain.HeaderChain
