import BjutEth.Chain.HeaderChain

namespace BjutEth.Chain

open Function Option
open Function (update)

variable {canonical : ℕ → Option Hash} {headers : ℕ × Hash → Option Header}

theorem readCanonicalHash_eq_iff {n : ℕ} {h : Hash} (hne : h ≠ 0) :
    readCanonicalHash canonical n = h ↔ canonical n = some h := by
  unfold readCanonicalHash
  cases canonical n with
  | none => simpa using hne.symm
  | some h' => simp

theorem deleteAbove_eq {N : ℕ} (fuel : ℕ) (canonical : ℕ → Option Hash) (i : ℕ)
    (hsome : ∀ j, i ≤ j → j ≤ N → ∃ h, canonical j = some h ∧ h ≠ 0)
    (hnone : ∀ j, N < j → canonical j = none) (hpos : 0 < fuel) (hfuel : N + 1 < fuel + i) :
    deleteAbove fuel canonical i = .ok (fun j ↦ if i ≤ j then none else canonical j) := by
  induction fuel generalizing canonical i with
  | zero => exact absurd hpos (lt_irrefl 0)
  | succ fuel ih =>
    rw [deleteAbove]
    rcases lt_or_ge N i with hlt | hle
    · have hfree : readCanonicalHash canonical i = 0 := by
        rw [readCanonicalHash, hnone i hlt]
        rfl
      rw [if_pos hfree]
      congr 1
      funext j
      split
      · next hj => exact hnone j (by omega)
      · rfl
    obtain ⟨h, hi, hne⟩ := hsome i le_rfl hle
    have hset : ¬ readCanonicalHash canonical i = 0 := by
      rw [readCanonicalHash, hi]
      exact hne
    rw [if_neg hset, ih]
    · congr 1
      funext j
      by_cases hj : j = i
      · subst hj
        rw [if_neg (by omega), if_pos le_rfl, update_self]
      rw [update_of_ne hj]
      by_cases hij : i ≤ j
      · rw [if_pos hij, if_pos (by omega)]
      · rw [if_neg hij, if_neg (by omega)]
    · intro j hj hjN
      rw [update_of_ne (by omega)]
      exact hsome j (by omega) hjN
    · intro j hj
      rw [update_of_ne (by omega)]
      exact hnone j hj
    · omega
    · omega

theorem overwrite_stop {h : Hash} {n : ℕ} (hne : h ≠ 0) (hn : canonical n = some h) (fuel : ℕ)
    (head : Option Header) : overwrite headers (fuel + 1) canonical h n head = .ok canonical := by
  have hread := (readCanonicalHash_eq_iff hne).mpr hn
  cases head <;> simp only [overwrite, if_pos hread]

theorem overwrite_go {h : Hash} {n : ℕ} (hne : h ≠ 0) (hn : canonical n ≠ some h) (fuel : ℕ) (hd : Header) :
    overwrite headers (fuel + 1) canonical h n (some hd) =
      overwrite headers fuel (update canonical n (some h)) hd.parentHash
        (prevNumber hd.number) (headers (prevNumber hd.number, hd.parentHash)) := by
  have hread : ¬ readCanonicalHash canonical n = h :=
    fun he ↦ hn ((readCanonicalHash_eq_iff hne).mp he)
  simp only [overwrite, if_neg hread]

namespace HeaderChain

variable {hash : Header → Hash} {hc : HeaderChain}

structure Stored (hash : Header → Hash) (hc : HeaderChain) : Prop where
  keyed : ∀ {n h hd}, hc.headers (n, h) = some hd → hash hd = h ∧ hd.number = n ∧ h ≠ 0
  rooted : ∀ {n h hd}, hc.headers (n, h) = some hd →
    Rooted hc.link (hash hc.genesisHeader) n h
  td : ∀ n h, hc.tds (n, h) = hc.work n h
  root : hc.headers (0, hash hc.genesisHeader) = some hc.genesisHeader

structure Closed (hash : Header → Hash) (hc : HeaderChain) : Prop extends Stored hash hc where
  current : hc.headers (hc.currentHeader.number, hc.currentHeaderHash) = some hc.currentHeader
  canonical : hc.canonical = lineage hc.link hc.currentHeader.number hc.currentHeaderHash

theorem link_eq_some {n : ℕ} {h p : Hash} :
    hc.link n h = some p ↔ ∃ hd, hc.headers (n, h) = some hd ∧ hd.parentHash = p :=
  map_eq_some_iff

theorem Rooted.header {root h : Hash} {n : ℕ} (hr : Rooted hc.link root n h) :
    ∃ hd, hc.headers (n, h) = some hd := by
  obtain ⟨p, hp⟩ := isSome_iff_exists.mp hr.isSome
  obtain ⟨hd, hhd, -⟩ := link_eq_some.mp hp
  exact ⟨hd, hhd⟩

variable {root : Hash} {hd : Header}

namespace Closed

section

variable (h : Closed hash hc)

include h

theorem current_rooted :
    Rooted hc.link (hash hc.genesisHeader) hc.currentHeader.number hc.currentHeaderHash :=
  h.rooted h.current

theorem canonical_of_le {i : ℕ} (hi : i ≤ hc.currentHeader.number) :
    ∃ q, hc.canonical i = some q ∧ Rooted hc.link (hash hc.genesisHeader) i q := by
  rw [h.canonical]
  exact h.current_rooted.lineage_eq_some hi

theorem canonical_of_lt {i : ℕ} (hi : hc.currentHeader.number < i) : hc.canonical i = none := by
  rw [h.canonical]
  exact lineage_of_lt hi

theorem ne_zero_of_rooted {n : ℕ} {q : Hash} (hr : Rooted hc.link root n q) : q ≠ 0 := by
  obtain ⟨hd, hhd⟩ := Rooted.header hr
  exact (h.keyed hhd).2.2

end

end Closed

theorem overwrite_eq (hkeyed : ∀ {n h hd}, hc.headers (n, h) = some hd → hd.number = n ∧ h ≠ 0) (n fuel : ℕ)
    (canonical : ℕ → Option Hash) (h : Hash) (hroot : Rooted hc.link root n h)
    (hzero : canonical 0 = some root)
    (hcons : ∀ m q, m ≤ n → canonical m = some q → ∀ i ≤ m, canonical i = lineage hc.link m q i)
    (hfuel : n < fuel) :
    overwrite hc.headers fuel canonical h n (hc.headers (n, h)) =
      .ok (fun i ↦ if i ≤ n then lineage hc.link n h i else canonical i) := by
  induction n generalizing fuel canonical h with
  | zero =>
    obtain ⟨fuel, rfl⟩ := Nat.exists_eq_succ_of_ne_zero hfuel.ne'
    obtain ⟨rfl, hsome⟩ := hroot
    obtain ⟨hd, hhd⟩ : ∃ hd, hc.headers (0, h) = some hd := Rooted.header ⟨rfl, hsome⟩
    rw [overwrite_stop (hkeyed hhd).2 hzero]
    congr 1
    funext i
    split
    · next hi =>
      obtain rfl : i = 0 := Nat.le_zero.mp hi
      exact hzero
    · rfl
  | succ n ih =>
    obtain ⟨fuel, rfl⟩ := Nat.exists_eq_succ_of_ne_zero (Nat.ne_zero_of_lt hfuel)
    obtain ⟨hd, hhd⟩ := Rooted.header hroot
    obtain ⟨hnum, hne⟩ := hkeyed hhd
    by_cases hstop : canonical (n + 1) = some h
    · rw [overwrite_stop hne hstop]
      congr 1
      funext i
      split
      · next hi => exact hcons (n + 1) h le_rfl hstop i hi
      · rfl
    have hprev : prevNumber hd.number = n := by rw [hnum, prevNumber, if_neg n.succ_ne_zero]; rfl
    have hlink : hc.link (n + 1) h = some hd.parentHash := link_eq_some.mpr ⟨hd, hhd, rfl⟩
    obtain ⟨p, hp, hrootp⟩ := hroot
    obtain rfl : hd.parentHash = p := some.inj (hlink.symm.trans hp)
    rw [hhd, overwrite_go hne hstop, hprev, ih fuel _ hd.parentHash hrootp ?_ ?_ (by omega)]
    · congr 1
      funext i
      by_cases hi : i ≤ n
      · rw [if_pos hi, if_pos (by omega), lineage_succ hlink (by omega)]
      rw [if_neg hi]
      by_cases hi' : i = n + 1
      · subst hi'
        rw [if_pos le_rfl, lineage_self, update_self]
      · rw [if_neg (by omega), update_of_ne hi']
    · exact hzero
    intro m q hm hq i hi
    rw [update_of_ne (by omega)] at hq ⊢
    exact hcons m q (by omega) hq i hi

theorem work_of_none {n : ℕ} {h : Hash} (hnone : hc.headers (n, h) = none) : hc.work n h = none := by
  cases n with
  | zero => rw [work, pathWork, hnone, map_none]
  | succ n => rw [work, pathWork, hnone, bind_none]

theorem work_zero {h : Hash} (hhd : hc.headers (0, h) = some hd) : hc.work 0 h = some hd.difficulty := by
  rw [work, pathWork, hhd, map_some]

theorem work_succ {n t : ℕ} {h : Hash} (hhd : hc.headers (n + 1, h) = some hd)
    (ht : hc.work n hd.parentHash = some t) : hc.work (n + 1) h = some (hd.difficulty + t) := by
  rw [work] at ht ⊢
  rw [pathWork, hhd, bind_some, ht, map_some]

theorem exists_work {h : Hash} {n : ℕ} (hr : Rooted hc.link root n h) : ∃ t, hc.work n h = some t := by
  induction n generalizing h with
  | zero =>
    obtain ⟨hd, hhd⟩ := Rooted.header hr
    exact ⟨_, work_zero hhd⟩
  | succ n ih =>
    obtain ⟨p, hp, hrp⟩ := hr
    obtain ⟨hd, hhd, rfl⟩ := link_eq_some.mp hp
    obtain ⟨t, ht⟩ := ih hrp
    exact ⟨_, work_succ hhd ht⟩

theorem work_mono {hc' : HeaderChain} (hle : ∀ k hd, hc.headers k = some hd → hc'.headers k = some hd)
    {n t : ℕ} {h : Hash} (ht : hc.work n h = some t) : hc'.work n h = some t := by
  induction n generalizing h t with
  | zero =>
    obtain ⟨hd, hhd, rfl⟩ := map_eq_some_iff.mp ht
    exact work_zero (hle _ _ hhd)
  | succ n ih =>
    obtain ⟨hd, hhd, ht⟩ := bind_eq_some_iff.mp ht
    obtain ⟨t', ht', rfl⟩ := map_eq_some_iff.mp ht
    exact work_succ (hle _ _ hhd) (ih ht')

theorem link_mono {hc' : HeaderChain} (hle : ∀ k hd, hc.headers k = some hd → hc'.headers k = some hd) :
    ∀ n k p, hc.link n k = some p → hc'.link n k = some p := by
  intro n k p hp
  obtain ⟨hd, hhd, rfl⟩ := link_eq_some.mp hp
  exact link_eq_some.mpr ⟨hd, hle _ _ hhd, rfl⟩

/-- A header that may be written: its parent is stored one number below, and its hash is not
zero and not that of another header. -/
structure Fits (hash : Header → Hash) (hc : HeaderChain) (header : Header) (n : ℕ) (parent : Header) :
    Prop where
  number : header.number = n + 1
  parent : hc.headers (n, header.parentHash) = some parent
  ne_zero : hash header ≠ 0
  same : ∀ m hd, hc.headers (m, hash header) = some hd → hd = header

section Store

variable {header parent : Header} {n t : ℕ}

theorem store_headers (hc : HeaderChain) (header : Header) (td : ℕ) :
    (hc.store hash header td).headers =
      update hc.headers (header.number, hash header) (some header) := rfl

theorem store_tds (hc : HeaderChain) (header : Header) (td : ℕ) :
    (hc.store hash header td).tds =
      update hc.tds (header.number, hash header) (some td) := rfl

section

variable (h : Fits hash hc header n parent)

include h

theorem headers_store (td : ℕ) :
    ∀ k hd, hc.headers k = some hd → (hc.store hash header td).headers k = some hd := by
  intro k hd hk
  by_cases he : k = (header.number, hash header)
  · subst he
    rw [store_headers, update_self, h.same _ _ hk]
  · rw [store_headers, update_of_ne he, hk]

theorem headers_store_eq_some {td m : ℕ} {k : Hash}
    (hk : (hc.store hash header td).headers (m, k) = some hd) :
    m = n + 1 ∧ k = hash header ∧ hd = header ∨ hc.headers (m, k) = some hd := by
  by_cases he : (m, k) = (header.number, hash header)
  · rw [store_headers, he, update_self] at hk
    cases he
    exact .inl ⟨h.number, rfl, (some.inj hk).symm⟩
  · rw [store_headers, update_of_ne he] at hk
    exact .inr hk

theorem headers_store_self (td : ℕ) :
    (hc.store hash header td).headers (n + 1, hash header) = some header := by
  rw [store_headers, h.number, update_self]

theorem link_store_self (td : ℕ) :
    (hc.store hash header td).link (n + 1) (hash header) = some header.parentHash :=
  link_eq_some.mpr ⟨header, headers_store_self h td, rfl⟩

end

variable (hcl : Stored hash hc) (h : Fits hash hc header n parent)
  (ht : hc.work n header.parentHash = some t)

include hcl h in
theorem rooted_store (td : ℕ) {m : ℕ} {k : Hash} (hk : (hc.store hash header td).headers (m, k) = some hd) :
    Rooted (hc.store hash header td).link (hash hc.genesisHeader) m k := by
  have hmono := link_mono (headers_store h td)
  rcases headers_store_eq_some h hk with ⟨rfl, rfl, -⟩ | hk
  · exact ⟨header.parentHash, link_store_self h td, (hcl.rooted h.parent).mono hmono⟩
  · exact (hcl.rooted hk).mono hmono

include hcl h ht in
theorem td_store (m : ℕ) (k : Hash) :
    (hc.store hash header (header.difficulty + t)).tds (m, k) =
      (hc.store hash header (header.difficulty + t)).work m k := by
  have hmono := headers_store h (header.difficulty + t)
  by_cases he : (m, k) = (n + 1, hash header)
  · cases he
    have hself := headers_store_self h (header.difficulty + t)
    rw [work_succ hself (work_mono hmono ht), store_tds, h.number, update_self]
  have htds : (hc.store hash header (header.difficulty + t)).tds (m, k) = hc.tds (m, k) := by
    rw [store_tds, h.number, update_of_ne he]
  rw [htds, hcl.td]
  cases hk : hc.headers (m, k) with
  | none =>
    rw [work_of_none hk, work_of_none]
    rw [store_headers, h.number, update_of_ne he, hk]
  | some hd =>
    obtain ⟨t', ht'⟩ := exists_work (hcl.rooted hk)
    rw [ht', work_mono hmono ht']

include hcl h ht in
theorem stored_store : Stored hash (hc.store hash header (header.difficulty + t)) where
  keyed hk := by
    rcases headers_store_eq_some h hk with ⟨rfl, rfl, rfl⟩ | hk
    · exact ⟨rfl, h.number, h.ne_zero⟩
    · exact hcl.keyed hk
  rooted := rooted_store hcl h _
  td := td_store hcl h ht
  root := headers_store h _ _ _ hcl.root

theorem closed_store (hcl : Closed hash hc) (h : Fits hash hc header n parent)
    (ht : hc.work n header.parentHash = some t) :
    Closed hash (hc.store hash header (header.difficulty + t)) where
  toStored := stored_store hcl.toStored h ht
  current := headers_store h _ _ _ hcl.current
  canonical := hcl.canonical.trans
    (hcl.current_rooted.lineage_eq (link_mono (headers_store h _))).symm

def adopt (hash : Header → Hash) (hc : HeaderChain) (header : Header) : HeaderChain :=
  { hc with
    canonical := lineage hc.link header.number (hash header)
    currentHeaderHash := hash header
    currentHeader := header }

end Store

theorem writeHeader_returns (hcl : Closed hash hc) {header parent : Header} {n t : ℕ}
    (h : Fits hash hc header n parent) (ht : hc.work n header.parentHash = some t) {cur : ℕ}
    (hcur : hc.work hc.currentHeader.number hc.currentHeaderHash = some cur) (tie : Bool) :
    Outcome.Returns (fun fuel ↦ hc.writeHeader hash fuel tie header)
      (if cur < header.difficulty + t ∨ header.difficulty + t = cur ∧ tie = true then
        (.canonStatTy, (hc.store hash header (header.difficulty + t)).adopt hash header)
      else (.sideStatTy, hc.store hash header (header.difficulty + t))) := by
  have hprev : prevNumber header.number = n := by
    rw [h.number, prevNumber]
    rfl
  have hptd : hc.tds (prevNumber header.number, header.parentHash) = some t := by
    rw [hprev, hcl.td, ht]
  have hltd : hc.tds (hc.currentHeader.number, hc.currentHeaderHash) = some cur := by
    rw [hcl.td, hcur]
  have hcl' := closed_store hcl h ht
  refine ⟨max hc.currentHeader.number n + 2, fun fuel hfuel ↦ ?_⟩
  simp only [writeHeader, hptd, hltd]
  by_cases hbetter : cur < header.difficulty + t ∨ header.difficulty + t = cur ∧ tie = true
  · rw [if_pos hbetter, if_pos hbetter]
    set hc' := hc.store hash header (header.difficulty + t) with hsto
    have hdel : deleteAbove fuel hc'.canonical (header.number + 1) =
        .ok (fun j ↦ if header.number + 1 ≤ j then none else hc'.canonical j) := by
      apply deleteAbove_eq (N := hc.currentHeader.number)
      · intro j _ hj
        obtain ⟨q, hq, hr⟩ := hcl'.canonical_of_le hj
        exact ⟨q, hq, hcl'.ne_zero_of_rooted hr⟩
      · intro j hj
        exact hcl'.canonical_of_lt hj
      · omega
      · omega
    have hpar : hc'.headers (n, header.parentHash) = some parent := headers_store h _ _ _ h.parent
    have hover : overwrite hc'.headers fuel
        (fun j ↦ if header.number + 1 ≤ j then none else hc'.canonical j) header.parentHash n
          (hc'.headers (n, header.parentHash)) =
        .ok (fun i ↦ if i ≤ n then lineage hc'.link n header.parentHash i
          else if header.number + 1 ≤ i then none else hc'.canonical i) := by
      apply overwrite_eq (fun hk ↦ (hcl'.keyed hk).2) n fuel _ _ (hcl'.rooted hpar)
      · rw [hcl'.canonical]
        exact hcl'.current_rooted.lineage_zero
      · intro m q hm hq i hi
        rw [if_neg (by rw [h.number]; omega), hcl'.canonical] at hq
        rw [if_neg (by rw [h.number]; omega), hcl'.canonical]
        exact lineage_eq_of_mem hq hi
      · omega
    rw [hdel]
    simp only [hprev]
    change (overwrite _ _ _ _ _ _ >>= fun _ ↦ _ : Go _) = _
    rw [hover]
    change Except.ok _ = _
    congr 2
    congr 1
    rw [h.number, lineage_succ_eq_update (link_store_self h _)]
    funext i
    by_cases hi : i = n + 1
    · subst hi
      rw [update_self, update_self]
    rw [update_of_ne hi, update_of_ne hi]
    by_cases hle : i ≤ n
    · rw [if_pos hle]
    · rw [if_neg hle, if_pos (by omega), lineage_of_lt (by omega)]
  · rw [if_neg hbetter, if_neg hbetter]
    rfl

structure Universe (hash : Header → Hash) (genesis : Header) where
  carrier : Set Header
  injOn : Set.InjOn hash carrier
  ne_zero : ∀ hd ∈ carrier, hash hd ≠ 0
  genesis_mem : genesis ∈ carrier
  genesis_number : genesis.number = 0

variable {genesis : Header}

/-- The chain comes from a new one by writing headers whose parent is stored and has the
number before theirs. -/
inductive Reachable (U : Universe hash genesis) : HeaderChain → Prop
  | new : Reachable U (.new hash genesis)
  | writeHeader {hc : HeaderChain} {header parent : Header} {tie : Bool}
      {r : WriteStatus × HeaderChain} (h : Reachable U hc) (hU : header ∈ U.carrier)
      (hp : hc.headers (parent.number, header.parentHash) = some parent)
      (hn : header.number = parent.number + 1)
      (hr : Outcome.Returns (fun fuel ↦ hc.writeHeader hash fuel tie header) r) : Reachable U r.2

theorem new_headers (genesis : Header) :
    (new hash genesis).headers = update (fun _ ↦ none) (0, hash genesis) (some genesis) := rfl

theorem new_tds (genesis : Header) :
    (new hash genesis).tds =
      update (fun _ ↦ none) (0, hash genesis) (some genesis.difficulty) := rfl

theorem new_headers_self (hash : Header → Hash) (genesis : Header) :
    (new hash genesis).headers (0, hash genesis) = some genesis := by
  rw [new_headers, update_self]

theorem new_headers_of_ne {k : ℕ × Hash} (h : k ≠ (0, hash genesis)) :
    (new hash genesis).headers k = none := by
  rw [new_headers, update_of_ne h]

theorem new_headers_eq_some {k : ℕ × Hash} (h : (new hash genesis).headers k = some hd) :
    k = (0, hash genesis) ∧ hd = genesis := by
  by_cases hk : k = (0, hash genesis)
  · subst hk
    exact ⟨rfl, some.inj (h.symm.trans (new_headers_self hash genesis))⟩
  · rw [new_headers_of_ne hk] at h
    cases h

theorem closed_new (U : Universe hash genesis) : Closed hash (.new hash genesis) := by
  have hself := new_headers_self hash genesis
  have hlink : (new hash genesis).link 0 (hash genesis) = some genesis.parentHash :=
    link_eq_some.mpr ⟨genesis, hself, rfl⟩
  refine ⟨⟨?_, ?_, ?_, hself⟩, ?_, ?_⟩
  · intro n h hd hhd
    obtain ⟨hk, rfl⟩ := new_headers_eq_some hhd
    cases hk
    exact ⟨rfl, U.genesis_number, U.ne_zero _ U.genesis_mem⟩
  · intro n h hd hhd
    obtain ⟨hk, -⟩ := new_headers_eq_some hhd
    cases hk
    exact ⟨rfl, isSome_of_eq_some hlink⟩
  · intro n h
    by_cases he : (n, h) = (0, hash genesis)
    · cases he
      rw [work_zero hself, new_tds, update_self]
    · rw [work_of_none (new_headers_of_ne he), new_tds, update_of_ne he]
  · change (new hash genesis).headers (genesis.number, hash genesis) = some genesis
    rw [U.genesis_number]
    exact hself
  change update _ _ _ = lineage (new hash genesis).link genesis.number (hash genesis)
  rw [U.genesis_number]
  funext i
  rcases Nat.eq_zero_or_pos i with rfl | hi
  · rfl
  · rw [update_of_ne hi.ne', lineage_of_lt hi]

def Maximal (hc : HeaderChain) : Prop :=
  ∃ cur, hc.work hc.currentHeader.number hc.currentHeaderHash = some cur ∧
    ∀ n h t, hc.work n h = some t → t ≤ cur

theorem maximal_new (U : Universe hash genesis) : Maximal (.new hash genesis) := by
  refine ⟨genesis.difficulty, ?_, fun n h t ht ↦ ?_⟩
  · change (new hash genesis).work genesis.number (hash genesis) = _
    rw [U.genesis_number]
    exact work_zero (new_headers_self hash genesis)
  cases hk : (new hash genesis).headers (n, h) with
  | none =>
    rw [work_of_none hk] at ht
    cases ht
  | some hd =>
    obtain ⟨he, -⟩ := new_headers_eq_some hk
    cases he
    rw [work_zero (new_headers_self hash genesis)] at ht
    exact (some.inj ht).symm.le

structure Inv (U : Universe hash genesis) (hc : HeaderChain) : Prop extends Closed hash hc where
  mem : ∀ {k hd}, hc.headers k = some hd → hd ∈ U.carrier
  genesisHeader : hc.genesisHeader = genesis

theorem Inv.fits {U : Universe hash genesis} (h : Inv U hc) {header parent : Header}
    (hU : header ∈ U.carrier) (hp : hc.headers (parent.number, header.parentHash) = some parent)
    (hn : header.number = parent.number + 1) : Fits hash hc header parent.number parent where
  number := hn
  parent := hp
  ne_zero := U.ne_zero _ hU
  same _ _ hk := U.injOn (h.mem hk) hU (h.keyed hk).1

theorem inv_new (U : Universe hash genesis) : Inv U (.new hash genesis) where
  toClosed := closed_new U
  mem hk := by
    obtain ⟨-, rfl⟩ := new_headers_eq_some hk
    exact U.genesis_mem
  genesisHeader := rfl

section Write

variable {U : Universe hash genesis} {header parent : Header} {tie : Bool}

variable {r : WriteStatus × HeaderChain}

theorem Inv.writeHeader (h : Inv U hc) (hU : header ∈ U.carrier)
    (hp : hc.headers (parent.number, header.parentHash) = some parent)
    (hn : header.number = parent.number + 1)
    (hr : Outcome.Returns (fun fuel ↦ hc.writeHeader hash fuel tie header) r) : Inv U r.2 := by
  have hfits := h.fits hU hp hn
  obtain ⟨t, ht⟩ := exists_work (h.rooted hp)
  obtain ⟨cur, hcur⟩ := exists_work h.current_rooted
  have hmem : ∀ {k hd}, (hc.store hash header (header.difficulty + t)).headers k = some hd →
      hd ∈ U.carrier := by
    rintro ⟨m, k⟩ hd hk
    rcases headers_store_eq_some hfits hk with ⟨-, -, rfl⟩ | hk
    · exact hU
    · exact h.mem hk
  have hcl := closed_store h.toClosed hfits ht
  rw [hr.unique (writeHeader_returns h.toClosed hfits ht hcur tie)]
  split
  · refine ⟨⟨⟨hcl.keyed, hcl.rooted, hcl.td, hcl.root⟩, ?_, rfl⟩, hmem, h.genesisHeader⟩
    show (hc.store hash header (header.difficulty + t)).headers (header.number, hash header) = some header
    rw [hn]
    exact headers_store_self hfits _
  · exact ⟨hcl, hmem, h.genesisHeader⟩

theorem Maximal.writeHeader (hmax : Maximal hc) (h : Inv U hc) (hU : header ∈ U.carrier)
    (hp : hc.headers (parent.number, header.parentHash) = some parent)
    (hn : header.number = parent.number + 1)
    (hr : Outcome.Returns (fun fuel ↦ hc.writeHeader hash fuel tie header) r) : Maximal r.2 := by
  have hfits := h.fits hU hp hn
  obtain ⟨t, ht⟩ := exists_work (h.rooted hp)
  obtain ⟨cur, hcur, hle⟩ := hmax
  have hmono := headers_store hfits (header.difficulty + t)
  have hnew : (hc.store hash header (header.difficulty + t)).work header.number (hash header) =
      some (header.difficulty + t) := by
    rw [hn]
    exact work_succ (headers_store_self hfits _) (work_mono hmono ht)
  -- every item of the grown store is the new header or was there before
  have hold : ∀ m k t', (hc.store hash header (header.difficulty + t)).work m k = some t' →
      t' ≤ max cur (header.difficulty + t) := by
    intro m k t' ht'
    cases hk : (hc.store hash header (header.difficulty + t)).headers (m, k) with
    | none =>
      rw [work_of_none hk] at ht'
      cases ht'
    | some hd =>
      rcases headers_store_eq_some hfits hk with ⟨rfl, rfl, -⟩ | hk
      · rw [← hn, hnew] at ht'
        exact (some.inj ht').symm.le.trans (le_max_right _ _)
      obtain ⟨t'', ht''⟩ := exists_work (h.rooted hk)
      rw [work_mono hmono ht''] at ht'
      exact (some.inj ht').symm.le.trans ((hle _ _ _ ht'').trans (le_max_left _ _))
  rw [hr.unique (writeHeader_returns h.toClosed hfits ht hcur tie)]
  split
  · next hbetter =>
    refine ⟨header.difficulty + t, hnew, fun m k t' ht' ↦ ?_⟩
    have := hold m k t' ht'
    omega
  next hworse =>
  refine ⟨cur, work_mono hmono hcur, fun m k t' ht' ↦ ?_⟩
  have := hold m k t' ht'
  omega

end Write

theorem Reachable.inv {U : Universe hash genesis} (h : Reachable U hc) : Inv U hc ∧ Maximal hc := by
  induction h with
  | new => exact ⟨inv_new U, maximal_new U⟩
  | writeHeader h hU hp hn hr ih =>
    exact ⟨ih.1.writeHeader hU hp hn hr, ih.2.writeHeader ih.1 hU hp hn hr⟩

/-- What a light client relies on: total difficulties are sums over paths, the current header
has the largest, and the canonical numbers are those of the path to it. The next header with a
stored parent is written, without a missing header on the way. -/
structure ForkChoice (U : Universe hash genesis) (hc : HeaderChain) : Prop where
  td : ∀ {n h hd}, hc.headers (n, h) = some hd → ∃ t, hc.tds (n, h) = some t ∧ hc.work n h = some t
  maximal : ∃ cur, hc.tds (hc.currentHeader.number, hc.currentHeaderHash) = some cur ∧
    ∀ {n h hd}, hc.headers (n, h) = some hd → ∃ t, hc.tds (n, h) = some t ∧ t ≤ cur
  rooted : Rooted hc.link (hash genesis) hc.currentHeader.number hc.currentHeaderHash
  canonical : hc.canonical = lineage hc.link hc.currentHeader.number hc.currentHeaderHash
  total : ∀ {header parent : Header} (tie : Bool), header ∈ U.carrier →
    hc.headers (parent.number, header.parentHash) = some parent →
    header.number = parent.number + 1 →
    ∃ r, Outcome.Returns (fun fuel ↦ hc.writeHeader hash fuel tie header) r

theorem reachable_forkChoice (U : Universe hash genesis) (h : Reachable U hc) : ForkChoice U hc := by
  obtain ⟨hinv, cur, hcur, hle⟩ := h.inv
  have htd : ∀ {n h hd}, hc.headers (n, h) = some hd →
      ∃ t, hc.tds (n, h) = some t ∧ hc.work n h = some t := by
    intro n h hd hk
    obtain ⟨t, ht⟩ := exists_work (hinv.rooted hk)
    exact ⟨t, (hinv.td n h).trans ht, ht⟩
  refine ⟨htd, ⟨cur, (hinv.td _ _).trans hcur, ?_⟩, ?_, hinv.canonical, ?_⟩
  · intro n h hd hk
    obtain ⟨t, ht, ht'⟩ := htd hk
    exact ⟨t, ht, hle n h t ht'⟩
  · rw [← hinv.genesisHeader]
    exact hinv.current_rooted
  intro header parent tie hU hp hn
  obtain ⟨t, ht⟩ := exists_work (hinv.rooted hp)
  exact ⟨_, writeHeader_returns hinv.toClosed (hinv.fits hU hp hn) ht hcur tie⟩

def plainHash (hd : Header) : Hash := .ofNat 256 (hd.number * 256 + hd.difficulty * 16 + hd.rest.length + 1)

def plainGenesis : Header := ⟨0, 1, 0, []⟩

def childOf (parent : Header) (difficulty : ℕ) (rest : Bytes) : Header :=
  ⟨plainHash parent, difficulty, parent.number + 1, rest⟩

def plainUniverse (l : List Header) (hnd : ((plainGenesis :: l).map plainHash).Nodup)
    (hne : ∀ hd ∈ plainGenesis :: l, plainHash hd ≠ 0) : Universe plainHash plainGenesis where
  carrier := {hd | hd ∈ plainGenesis :: l}
  injOn := injOn_of_nodup_map hnd
  ne_zero := hne
  genesis_mem := List.mem_cons_self
  genesis_number := rfl

/-- Of two children of the genesis header the heavier one comes second and takes over. -/
theorem reachable_forkChoice_fork :
    ∃ (U : Universe plainHash plainGenesis) (hc : HeaderChain), Reachable U hc ∧
      hc.headers (1, plainHash (childOf plainGenesis 2 [])) = some (childOf plainGenesis 2 []) ∧
      hc.currentHeader = childOf plainGenesis 3 [] ∧ ForkChoice U hc := by
  let U := plainUniverse [childOf plainGenesis 2 [], childOf plainGenesis 3 []] (by decide) (by decide)
  let hc1 := ((new plainHash plainGenesis).store plainHash (childOf plainGenesis 2 []) 3).adopt plainHash
    (childOf plainGenesis 2 [])
  have hp := new_headers_self plainHash plainGenesis
  have hmem : childOf plainGenesis 2 [] ∈ U.carrier := List.mem_cons_of_mem _ List.mem_cons_self
  have hr := writeHeader_returns (inv_new U).toClosed ((inv_new U).fits hmem hp rfl) (work_zero hp) (work_zero hp) false
  have hreach : Reachable U hc1 := Reachable.new.writeHeader hmem hp rfl hr
  have hp' : hc1.headers (0, plainHash plainGenesis) = some plainGenesis := by decide
  have hmem' : childOf plainGenesis 3 [] ∈ U.carrier :=
    List.mem_cons_of_mem _ (List.mem_cons_of_mem _ List.mem_cons_self)
  have hr' := writeHeader_returns hreach.inv.1.toClosed (hreach.inv.1.fits hmem' hp' rfl) (work_zero hp')
    (work_succ rfl (work_zero hp')) false
  have hreach' := hreach.writeHeader hmem' hp' rfl hr'
  exact ⟨U, _, hreach', rfl, rfl, reachable_forkChoice _ hreach'⟩

end HeaderChain

end BjutEth.Chain
