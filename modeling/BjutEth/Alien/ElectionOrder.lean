import BjutEth.Alien.Issuance
import BjutEth.Lib.FoldOrder

namespace BjutEth.Alien

open Std Outcome List Runtime

structure StrictWeak {α : Type} (less : α → α → Bool) : Prop where
  trans : ∀ a b c, less a b → less b c → less a c
  irrefl : ∀ a, less a a = false
  negTrans : ∀ a b c, less a b = false → less b c = false → less a c = false

theorem tallyLess_eq_false {a b : TallyItem} : tallyLess a b = false ↔
    a.stake ≤ b.stake ∧ (a.stake = b.stake → a.addr.toNat ≤ b.addr.toNat) := by
  simp only [tallyLess, Bool.or_eq_false_iff, decide_eq_false_iff_not, Bool.and_eq_false_iff,
    beq_eq_false_iff_ne, BitVec.lt_def]
  omega

theorem tallyLess_eq_true {a b : TallyItem} : tallyLess a b = true ↔
    b.stake < a.stake ∨ a.stake = b.stake ∧ b.addr.toNat < a.addr.toNat := by
  simp only [tallyLess, Bool.or_eq_true, decide_eq_true_eq, Bool.and_eq_true, beq_iff_eq,
    BitVec.lt_def]

theorem strictWeak_tallyLess : StrictWeak tallyLess where
  trans a b c := by
    simp only [tallyLess_eq_true]
    omega
  irrefl a := by
    simp [tallyLess_eq_false]
  negTrans a b c := by
    simp only [tallyLess_eq_false]
    omega

theorem signerLess_eq_false {a b : SignerItem} :
    signerLess a b = false ↔ a.hash.toNat ≤ b.hash.toNat := by
  simp only [signerLess, decide_eq_false_iff_not, BitVec.lt_def, Nat.not_lt]

theorem strictWeak_signerLess : StrictWeak signerLess where
  trans a b c := by
    simp only [signerLess, decide_eq_true_eq, BitVec.lt_def]
    omega
  irrefl a := signerLess_eq_false.mpr le_rfl
  negTrans a b c := by
    simp only [signerLess_eq_false]
    omega

variable {α : Type}

theorem Runtime.sort_pairwise (rt : Runtime) {less : α → α → Bool}
    (hless : StrictWeak less) (l : List α) :
    (rt.sort less l).Pairwise (fun a b ↦ less b a = false) :=
  rt.sort_sorted less l hless.trans hless.irrefl hless.negTrans

theorem Runtime.sort_eq_sort (rt rt' : Runtime) {less : α → α → Bool}
    (hless : StrictWeak less) {l l' : List α} (hperm : l.Perm l')
    (hkeys : ∀ a ∈ l, ∀ b ∈ l, less a b = false → less b a = false → a = b) :
    rt.sort less l = rt'.sort less l' := by
  have hall : (rt.sort less l).Perm (rt'.sort less l') :=
    (rt.sort_perm less l).trans (hperm.trans (rt'.sort_perm less l').symm)
  refine List.Perm.eq_of_pairwise (fun a b ha hb hab hba ↦ ?_) (rt.sort_pairwise hless l)
    (rt'.sort_pairwise hless l') hall
  have ha' := (rt.sort_perm less l).mem_iff.mp ha
  have hb' := (rt.sort_perm less l).mem_iff.mp (hall.mem_iff.mpr hb)
  exact hkeys a ha' b hb' hba hab

theorem sort_tallyLess_eq (rt rt' : Runtime) {l l' : List TallyItem} (hperm : l.Perm l') :
    rt.sort tallyLess l = rt'.sort tallyLess l' := by
  refine rt.sort_eq_sort rt' strictWeak_tallyLess hperm (fun a _ b _ hab hba ↦ ?_)
  rw [tallyLess_eq_false] at hab hba
  have hstk : a.stake = b.stake := by omega
  have haddr : a.addr = b.addr := BitVec.eq_of_toNat_eq (by omega)
  cases a
  cases b
  simp_all

theorem sort_signerLess_eq (rt rt' : Runtime) {l : List SignerItem}
    (hkeys : (l.map (·.hash)).Nodup) : rt.sort signerLess l = rt'.sort signerLess l := by
  refine rt.sort_eq_sort rt' strictWeak_signerLess (.refl l) (fun a ha b hb hab hba ↦ ?_)
  rw [signerLess_eq_false] at hab hba
  exact inj_on_of_nodup_map hkeys ha hb (BitVec.eq_of_toNat_eq (by omega))

theorem cycle_length (l : List α) : cycle l.length l = l := by
  have hmod : ∀ i ∈ List.range l.length, l[i % l.length]? = l[i]? := fun i hi ↦ by
    rw [Nat.mod_eq_of_lt (mem_range.mp hi)]
  unfold cycle
  rw [filterMap_congr hmod]
  exact filterMap_range_getElem? l

theorem take_append_drop_take {m n : ℕ} (h : m ≤ n) (l : List α) :
    l.take m ++ (l.take n).drop m = l.take n := by
  have htake : l.take m = (l.take n).take m := by rw [take_take, Nat.min_eq_left h]
  rw [htake, take_append_drop]

theorem not_sublist_swap {a b : α} {l : List α} (hl : l.Nodup) (h : [a, b].Sublist l) :
    ¬ [b, a].Sublist l := by
  induction l with
  | nil => cases h
  | cons x l ih =>
    obtain ⟨hx, hl⟩ := nodup_cons.mp hl
    intro h'
    cases h with
    | cons _ h =>
      cases h' with
      | cons _ h' => exact ih hl h h'
      | cons_cons _ h' => exact hx (h.subset (by simp))
    | cons_cons _ h =>
      cases h' with
      | cons _ h' => exact hx (h'.subset (by simp))
      | cons_cons _ h' => exact hx (h.subset (by simp))

def Runtime.backward : Runtime where
  rangeOrder l := l.reverse
  rangeOrder_perm l := l.reverse_perm
  sort less l := Runtime.inOrder.sort less l.reverse
  sort_perm less l := (Runtime.inOrder.sort_perm less l.reverse).trans l.reverse_perm
  sort_sorted less l := Runtime.inOrder.sort_sorted less l.reverse

namespace Snapshot

variable {cfg : Config} {s : Snapshot}

theorem mapM_recentHash (s : Snapshot) (addrs : List Address) (k : ℕ) (hk : k ≤ s.historyHash.length) :
    (addrs.zipIdx k).mapM (fun e ↦ do return (⟨e.1, ← s.recentHash e.2⟩ : SignerItem)) =
      if k + addrs.length ≤ s.historyHash.length then
        .ok (List.zipWith SignerItem.mk addrs (s.historyHash.reverse.drop k))
      else (goPanic : Go (List SignerItem)) := by
  induction addrs generalizing k with
  | nil =>
    rw [length_nil, add_zero, if_pos hk]
    rfl
  | cons addr addrs ih =>
    rw [zipIdx_cons, mapM_cons, length_cons]
    obtain hlt | hge := Nat.lt_or_ge k s.historyHash.length
    · have hget : s.historyHash.reverse[k]? =
          some (s.historyHash.reverse.get ⟨k, by rwa [length_reverse]⟩) :=
        getElem?_eq_getElem _
      have hdrop : s.historyHash.reverse.drop k =
          s.historyHash.reverse.get ⟨k, by rwa [length_reverse]⟩ ::
            s.historyHash.reverse.drop (k + 1) := drop_eq_getElem_cons _
      have hhash : s.recentHash k =
          .ok (s.historyHash.reverse.get ⟨k, by rwa [length_reverse]⟩) := by
        rw [recentHash, hget]
      have hrest := ih (k + 1) hlt
      rw [hdrop, zipWith_cons_cons, hhash]
      by_cases hlen : k + 1 + addrs.length ≤ s.historyHash.length
      · rw [if_pos hlen] at hrest
        rw [if_pos (by omega)]
        exact bind_eq_ok.mpr ⟨_, rfl, bind_eq_ok.mpr ⟨_, hrest, rfl⟩⟩
      rw [if_neg hlen] at hrest
      rw [if_neg (by omega)]
      rw [hrest]
      rfl
    have hget : s.historyHash.reverse[k]? = none :=
      List.getElem?_eq_none (by rwa [length_reverse])
    have hhash : s.recentHash k = goPanic := by
      rw [recentHash, hget]
    rw [if_neg (by omega), hhash]
    rfl

theorem signerItems_eq (s : Snapshot) (addrs : List Address) :
    s.signerItems addrs = if addrs.length ≤ s.historyHash.length then
      .ok (List.zipWith SignerItem.mk addrs s.historyHash.reverse) else goPanic := by
  have h := mapM_recentHash s addrs 0 (Nat.zero_le _)
  rw [zero_add, drop_zero] at h
  exact h

theorem map_hash_zipWith (addrs : List Address) (hashes : List Hash) :
    (List.zipWith SignerItem.mk addrs hashes).map (·.hash) = hashes.take addrs.length := by
  induction addrs generalizing hashes with
  | nil => simp
  | cons addr addrs ih =>
    cases hashes with
    | nil => simp
    | cons hash hashes => simp [ih]

theorem map_addr_zipWith {addrs : List Address} {hashes : List Hash}
    (h : addrs.length ≤ hashes.length) :
    (List.zipWith SignerItem.mk addrs hashes).map (·.addr) = addrs := by
  induction addrs generalizing hashes with
  | nil => simp
  | cons addr addrs ih =>
    cases hashes with
    | nil => simp at h
    | cons hash hashes =>
      simp [ih (Nat.le_of_succ_le_succ h)]

theorem signerItems_eq_ok {addrs : List Address} {items : List SignerItem}
    (h : s.signerItems addrs = .ok items) :
    addrs.length ≤ s.historyHash.length ∧
      items = List.zipWith SignerItem.mk addrs s.historyHash.reverse ∧
      items.map (·.addr) = addrs ∧
      items.map (·.hash) = s.historyHash.reverse.take addrs.length := by
  rw [signerItems_eq] at h
  split_ifs at h with hlen
  · cases h
    exact ⟨hlen, rfl, map_addr_zipWith (by rwa [length_reverse]), map_hash_zipWith _ _⟩
  · cases h

theorem nodup_hash_of_signerItems {addrs : List Address} {items : List SignerItem}
    (hhist : s.historyHash.Nodup) (h : s.signerItems addrs = .ok items) :
    (items.map (·.hash)).Nodup := by
  rw [(signerItems_eq_ok h).2.2.2]
  exact (nodup_reverse.mpr hhist).sublist (take_sublist _ _)

def ranking (rt : Runtime) (s : Snapshot) : List Address :=
  (rt.sort tallyLess (s.buildTallySlice rt)).map (·.addr)

theorem buildTallySlice_perm (rt : Runtime) (s : Snapshot) :
    (s.buildTallySlice rt).Perm
      (s.tally.toList.map (fun e ↦ ⟨e.1, e.2 * s.creditWeight e.1⟩)) := by
  have hall : s.buildTallySlice rt =
      (rt.rangeOrder s.tally.toList).map (fun e ↦ ⟨e.1, e.2 * s.creditWeight e.1⟩) := by
    unfold buildTallySlice candidateNeedPD
    exact congrFun filterMap_eq_map _
  rw [hall]
  exact (rt.rangeOrder_perm _).map _

theorem ranking_eq (rt rt' : Runtime) (s : Snapshot) : s.ranking rt = s.ranking rt' :=
  congrArg (List.map _) (sort_tallyLess_eq rt rt'
    ((s.buildTallySlice_perm rt).trans (s.buildTallySlice_perm rt').symm))

theorem ranking_perm (rt : Runtime) (s : Snapshot) : (s.ranking rt).Perm (s.tally.toList.map (·.1)) := by
  have h := ((rt.sort_perm tallyLess _).trans (s.buildTallySlice_perm rt)).map (·.addr)
  rw [map_map] at h
  exact h

theorem length_ranking (rt : Runtime) (s : Snapshot) : (s.ranking rt).length = s.tally.size := by
  rw [(s.ranking_perm rt).length_eq, length_map, ExtTreeMap.length_toList]

theorem electedItems_eq (rt : Runtime) (cfg : Config) (s : Snapshot) :
    s.electedItems rt cfg =
      if min (goInt cfg.maxSignerCount) (s.tally.size : ℤ) = 21 ∧ 30 < s.tally.size then
        s.levelItems rt (s.ranking rt)
      else if min (goInt cfg.maxSignerCount) (s.tally.size : ℤ) < 0 then goPanic
      else s.signerItems ((s.ranking rt).take (min (goInt cfg.maxSignerCount) s.tally.size).toNat) := by
  change (if (decide (min (goInt cfg.maxSignerCount) ((s.ranking rt).length : ℤ) = 21) &&
    decide (30 < (s.ranking rt).length)) = true then s.levelItems rt (s.ranking rt)
    else if min (goInt cfg.maxSignerCount) ((s.ranking rt).length : ℤ) < 0 then goPanic
    else s.signerItems ((s.ranking rt).take
      (min (goInt cfg.maxSignerCount) ((s.ranking rt).length : ℤ)).toNat)) = _
  rw [length_ranking]
  simp only [Bool.and_eq_true, decide_eq_true_eq]

theorem levelItems_eq (hhist : s.historyHash.Nodup) (rt rt' : Runtime) (addrs : List Address) :
    s.levelItems rt addrs = s.levelItems rt' addrs := by
  have hlev : ∀ (l : List Address) (items : List SignerItem), s.signerItems l = .ok items →
      rt.sort signerLess items = rt'.sort signerLess items :=
    fun _ _ h ↦ sort_signerLess_eq rt rt' (nodup_hash_of_signerItems hhist h)
  unfold levelItems
  cases hfst : s.signerItems (addrs.take defaultOfficialFirstLevelCount) with
  | error _ => rfl
  | ok first =>
    cases hsnd : s.signerItems
        ((addrs.take defaultOfficialSecondLevelCount).drop defaultOfficialFirstLevelCount) with
    | error _ => rfl
    | ok second =>
      cases hthd : s.signerItems
          ((addrs.take defaultOfficialThirdLevelCount).drop defaultOfficialSecondLevelCount) with
      | error _ => rfl
      | ok third =>
        cases hlast : s.signerItems
            ((addrs.take defaultOfficialMaxValidCount).drop defaultOfficialThirdLevelCount) with
        | error _ => rfl
        | ok last =>
          change (Except.ok (_ ++ _ ++ _ ++ _) : Go (List SignerItem)) = .ok (_ ++ _ ++ _ ++ _)
          rw [hlev _ second hsnd, hlev _ third hthd, hlev _ last hlast]

theorem queueItems_eq (hhist : s.historyHash.Nodup) (rt rt' : Runtime) (cfg : Config) :
    s.queueItems rt cfg = s.queueItems rt' cfg := by
  have helected : s.electedItems rt cfg = s.electedItems rt' cfg := by
    rw [electedItems_eq, electedItems_eq, ranking_eq rt rt', levelItems_eq hhist rt rt']
  unfold queueItems
  rw [helected]

theorem recentHash_zero (s : Snapshot) :
    s.recentHash 0 = match s.historyHash.getLast? with
      | none => goPanic
      | some hash => .ok hash := by
  have hhead : s.historyHash.reverse[0]? = s.historyHash.getLast? := by
    rw [← head?_eq_getElem?, head?_reverse]
  cases hlast : s.historyHash.getLast? with
  | none => simp only [recentHash, hhead, hlast]
  | some hash => simp only [recentHash, hhead, hlast]

/-- An election by levels: the queue is recreated from the tally for the official number
of signers, with more candidates than the first three levels have. -/
structure LevelElection (cfg : Config) (s : Snapshot) : Prop where
  loopEnd : (s.number + 1) % cfg.maxSignerCount = 0
  head : s.historyHash.getLast? = some s.hash
  modulus : cfg.maxSignerCount * s.lcrs ≠ 0
  recreated : (s.number + 1) % (cfg.maxSignerCount * s.lcrs) = 0
  official : cfg.maxSignerCount = 21
  levels : 30 < s.tally.size
  history : max 10 (min 50 s.tally.size - 30) ≤ s.historyHash.length

theorem levelItems_eq_ok {rt : Runtime} {addrs : List Address} {items : List SignerItem} :
    s.levelItems rt addrs = .ok items ↔ ∃ first second third last,
      s.signerItems (addrs.take 10) = .ok first ∧
      s.signerItems ((addrs.take 20).drop 10) = .ok second ∧
      s.signerItems ((addrs.take 30).drop 20) = .ok third ∧
      s.signerItems ((addrs.take 50).drop 30) = .ok last ∧
      first ++ (rt.sort signerLess second).take 6 ++ (rt.sort signerLess third).take 4 ++
        (rt.sort signerLess last).take 1 = items := by
  unfold levelItems
  simp only [bind_eq_ok]
  constructor
  · rintro ⟨first, hfst, second, hsnd, third, hthd, last, hlast, hits⟩
    exact ⟨first, second, third, last, hfst, hsnd, hthd, hlast, Except.ok.inj hits⟩
  · rintro ⟨first, second, third, last, hfst, hsnd, hthd, hlast, hits⟩
    exact ⟨first, hfst, second, hsnd, third, hthd, last, hlast, congrArg Except.ok hits⟩

theorem nodup_hash_of_queueItems (hhist : s.historyHash.Nodup) {rt : Runtime}
    {items : List SignerItem} (hloop : (s.number + 1) % cfg.maxSignerCount = 0)
    (hhead : s.historyHash.getLast? = some s.hash) (h : s.queueItems rt cfg = .ok items) :
    (items.map (·.hash)).Nodup ∨ LevelElection cfg s := by
  unfold queueItems at h
  split_ifs at h with hmod hrec
  · cases h
  · rw [electedItems_eq] at h
    split_ifs at h with hlev hneg
    · obtain ⟨hcnt, hsize⟩ := hlev
      have hofficial : goInt cfg.maxSignerCount = goInt 21 := by
        change _ = (21 : ℤ)
        omega
      obtain ⟨first, second, third, last, hfst, -, -, hlast, -⟩ := levelItems_eq_ok.mp h
      have hfst := (signerItems_eq_ok hfst).1
      have hlast := (signerItems_eq_ok hlast).1
      rw [length_take, length_ranking] at hfst
      rw [length_drop, length_take, length_ranking] at hlast
      exact .inr ⟨hloop, hhead, hmod, hrec, UInt64.toBitVec_inj.mp (BitVec.eq_of_toInt_eq hofficial), hsize, by omega⟩
    · cases h
    · exact .inl (nodup_hash_of_signerItems hhist h)
  · exact .inl (nodup_hash_of_signerItems hhist h)

theorem createSignerQueue_eq_of_not_level (hhist : s.historyHash.Nodup)
    (hlev : ¬ LevelElection cfg s) (rt rt' : Runtime) :
    s.createSignerQueue rt cfg = s.createSignerQueue rt' cfg := by
  rw [createSignerQueue_eq, createSignerQueue_eq]
  split_ifs with hloop
  · rfl
  rw [recentHash_zero]
  cases hlast : s.historyHash.getLast? with
  | none => rfl
  | some lastHash =>
    change (if s.hash ≠ lastHash then _ else _) = (if s.hash ≠ lastHash then _ else _)
    split_ifs with hhash
    · rfl
    rw [not_not] at hloop hhash
    rw [queueItems_eq hhist rt rt']
    cases hits : s.queueItems rt' cfg with
    | error _ => rfl
    | ok items =>
      have hkeys := (nodup_hash_of_queueItems hhist hloop (hhash ▸ hlast) hits).resolve_right
        hlev
      change (if items.isEmpty = true then _ else _) = (if items.isEmpty = true then _ else _)
      rw [sort_signerLess_eq rt rt' hkeys]

section Levels

variable {rt : Runtime} {addrs : List Address} {first second third last items : List SignerItem}

theorem nodup_addr_of_levels (haddrs : addrs.Nodup) (hfst : s.signerItems (addrs.take 10) = .ok first)
    (hsnd : s.signerItems ((addrs.take 20).drop 10) = .ok second)
    (hthd : s.signerItems ((addrs.take 30).drop 20) = .ok third)
    (hlast : s.signerItems ((addrs.take 50).drop 30) = .ok last) :
    ((first ++ (rt.sort signerLess second).take 6 ++ (rt.sort signerLess third).take 4 ++
      (rt.sort signerLess last).take 1).map (·.addr)).Nodup := by
  have htaken : ∀ (k : ℕ) (l : List SignerItem),
      (((rt.sort signerLess l).take k).map (·.addr)).Subperm (l.map (·.addr)) := fun k l ↦
    ((take_sublist k _).map _).subperm.trans ((rt.sort_perm signerLess l).map _).subperm
  have hsub : ((first ++ (rt.sort signerLess second).take 6 ++ (rt.sort signerLess third).take 4 ++
      (rt.sort signerLess last).take 1).map (·.addr)).Subperm
      (addrs.take 10 ++ (addrs.take 20).drop 10 ++ (addrs.take 30).drop 20 ++
        (addrs.take 50).drop 30) := by
    rw [map_append, map_append, map_append, (signerItems_eq_ok hfst).2.2.1]
    refine ((List.Subperm.refl _).append ?_ |>.append ?_).append ?_
    · exact (signerItems_eq_ok hsnd).2.2.1 ▸ htaken 6 second
    · exact (signerItems_eq_ok hthd).2.2.1 ▸ htaken 4 third
    · exact (signerItems_eq_ok hlast).2.2.1 ▸ htaken 1 last
  have hall : addrs.take 10 ++ (addrs.take 20).drop 10 ++ (addrs.take 30).drop 20 ++
      (addrs.take 50).drop 30 = addrs.take 50 := by
    rw [take_append_drop_take (by omega), take_append_drop_take (by omega),
      take_append_drop_take (by omega)]
  rw [hall] at hsub
  obtain ⟨l, hperm, hsublist⟩ := hsub
  exact hperm.nodup_iff.mp ((haddrs.sublist (take_sublist _ _)).sublist hsublist)

theorem exists_hash_eq_of_zipWith {l l' : List Address} {hashes : List Hash} {b : SignerItem}
    (hlen : l'.length ≤ l.length) (hb : b ∈ List.zipWith SignerItem.mk l' hashes) :
    ∃ a ∈ List.zipWith SignerItem.mk l hashes, a.hash = b.hash := by
  have hmem : b.hash ∈ (List.zipWith SignerItem.mk l' hashes).map (·.hash) := mem_map_of_mem hb
  rw [map_hash_zipWith] at hmem
  have hmem' : b.hash ∈ (List.zipWith SignerItem.mk l hashes).map (·.hash) := by
    rw [map_hash_zipWith]
    exact take_subset_take_left _ hlen hmem
  exact mem_map.mp hmem'

theorem exists_tie_of_levels (rt : Runtime) (hlen : 20 ≤ addrs.length)
    (hfst : s.signerItems (addrs.take 10) = .ok first)
    (hsnd : s.signerItems ((addrs.take 20).drop 10) = .ok second) (rest : List SignerItem) :
    ∃ a b, a.hash = b.hash ∧ [a, b].Sublist (first ++ (rt.sort signerLess second).take 6 ++ rest) := by
  obtain ⟨-, hfst', -, -⟩ := signerItems_eq_ok hfst
  obtain ⟨-, hsnd', hsecondAddr, -⟩ := signerItems_eq_ok hsnd
  have hlength : (rt.sort signerLess second).length = 10 := by
    have := congrArg List.length hsecondAddr
    rw [length_map, length_drop, length_take] at this
    rw [(rt.sort_perm signerLess second).length_eq]
    omega
  obtain ⟨b, hb⟩ : ∃ b, b ∈ (rt.sort signerLess second).take 6 := by
    refine exists_mem_of_length_pos ?_
    rw [length_take, hlength]
    decide
  have hb' : b ∈ second := (rt.sort_perm signerLess second).mem_iff.mp (mem_of_mem_take hb)
  rw [hsnd'] at hb'
  obtain ⟨a, ha, hhash⟩ := exists_hash_eq_of_zipWith (l := addrs.take 10) (by simp) hb'
  rw [← hfst'] at ha
  refine ⟨a, b, hhash, List.Sublist.trans ?_ (sublist_append_left _ rest)⟩
  exact (singleton_sublist.mpr ha).append (singleton_sublist.mpr hb)

theorem exists_signerItems (s : Snapshot) (addrs : List Address) (h : addrs.length ≤ s.historyHash.length) :
    ∃ items, s.signerItems addrs = .ok items := by
  rw [signerItems_eq, if_pos h]
  exact ⟨_, rfl⟩

theorem LevelElection.createSignerQueue (h : LevelElection cfg s) (hhist : s.historyHash.Nodup) :
    ∃ items : List SignerItem,
      (∀ rt : Runtime, s.createSignerQueue rt cfg = .ok ((rt.sort signerLess items).map (·.addr))) ∧
      (items.map (·.addr)).Nodup ∧ ∃ a b, a.hash = b.hash ∧ [a, b].Sublist items := by
  let addrs := s.ranking .inOrder
  have hlen : addrs.length = s.tally.size := s.length_ranking .inOrder
  have hsize := h.levels
  have hlong := h.history
  obtain ⟨first, hfst⟩ := exists_signerItems s (addrs.take 10) (by simp; omega)
  obtain ⟨second, hsnd⟩ := exists_signerItems s ((addrs.take 20).drop 10)
    (by simp; omega)
  obtain ⟨third, hthd⟩ := exists_signerItems s ((addrs.take 30).drop 20)
    (by simp; omega)
  obtain ⟨last, hlast⟩ := exists_signerItems s ((addrs.take 50).drop 30)
    (by simp; omega)
  let items := first ++ (inOrder.sort signerLess second).take 6 ++
    (inOrder.sort signerLess third).take 4 ++ (inOrder.sort signerLess last).take 1
  have hnd : (items.map (·.addr)).Nodup :=
    nodup_addr_of_levels ((s.ranking_perm .inOrder).nodup_iff.mpr (GoMap.nodup_keys_toList _)) hfst hsnd hthd hlast
  have htie : ∃ a b, a.hash = b.hash ∧ [a, b].Sublist items := by
    have h := exists_tie_of_levels .inOrder (by omega) hfst hsnd
      ((inOrder.sort signerLess third).take 4 ++ (inOrder.sort signerLess last).take 1)
    rwa [← List.append_assoc] at h
  have hlev : s.levelItems .inOrder addrs = .ok items :=
    levelItems_eq_ok.mpr ⟨first, second, third, last, hfst, hsnd, hthd, hlast, rfl⟩
  have hque : ∀ rt : Runtime, s.queueItems rt cfg = .ok items := fun rt ↦ by
    have hcnt : min (goInt cfg.maxSignerCount) (s.tally.size : ℤ) = 21 := by
      rw [h.official]
      change min 21 (s.tally.size : ℤ) = 21
      omega
    rw [queueItems_eq hhist rt .inOrder, queueItems, if_neg h.modulus, if_pos h.recreated,
      electedItems_eq, if_pos ⟨hcnt, hsize⟩]
    exact hlev
  have hlength : items.length = 21 := by
    have h1 := congrArg List.length (signerItems_eq_ok hfst).2.2.1
    have h2 := congrArg List.length (signerItems_eq_ok hsnd).2.2.1
    have h3 := congrArg List.length (signerItems_eq_ok hthd).2.2.1
    have h4 := congrArg List.length (signerItems_eq_ok hlast).2.2.1
    simp only [length_map, length_drop, length_take] at h1 h2 h3 h4
    simp only [items, length_append, length_take, (sort_perm _ _ _).length_eq]
    omega
  refine ⟨items, fun rt ↦ ?_, hnd, htie⟩
  have hfill : fillQueue cfg (rt.sort signerLess items) = (rt.sort signerLess items).map (·.addr) := by
    have hcnt : (goInt cfg.maxSignerCount).toNat = ((rt.sort signerLess items).map (·.addr)).length := by
      rw [h.official, length_map, (rt.sort_perm signerLess items).length_eq, hlength]
      rfl
    rw [fillQueue, hcnt, cycle_length]
  have hne : items.isEmpty = false := by
    rw [isEmpty_eq_false_iff, ← length_pos_iff, hlength]
    decide
  rw [createSignerQueue_eq, if_neg (not_not.mpr h.loopEnd), recentHash_zero, h.head]
  change (if s.hash ≠ s.hash then _ else _) = _
  rw [if_neg (not_not.mpr rfl), hque rt]
  change (if items.isEmpty = true then _ else _) = _
  rw [hne, if_neg Bool.false_ne_true, hfill]

theorem LevelElection.createSignerQueue_ne (h : LevelElection cfg s) (hhist : s.historyHash.Nodup) :
    s.createSignerQueue .inOrder cfg ≠ s.createSignerQueue .backward cfg := by
  obtain ⟨items, hque, hnd, a, b, hhash, hsub⟩ := h.createSignerQueue hhist
  rw [hque, hque]
  intro heq
  have hsame := Except.ok.inj heq
  have hfwd : [a, b].Sublist (inOrder.sort signerLess items) :=
    pair_sublist_insertionSort (signerLess_eq_false.mpr (by rw [hhash])) hsub
  have hreverse : [b, a].Sublist (backward.sort signerLess items) :=
    pair_sublist_insertionSort (signerLess_eq_false.mpr (by rw [hhash])) hsub.reverse
  have hsort : ((inOrder.sort signerLess items).map (·.addr)).Nodup :=
    ((inOrder.sort_perm signerLess items).map _).nodup_iff.mpr hnd
  refine not_sublist_swap (a := a.addr) (b := b.addr) hsort (hfwd.map SignerItem.addr) ?_
  rw [hsame]
  exact hreverse.map SignerItem.addr

end Levels

/-- The order of the queue is determined by the snapshot, for all sorting procedures and
all orders of the tally, exactly where it is not elected by levels. -/
theorem queue_determined_iff (cfg : Config) (s : Snapshot) (hhist : s.historyHash.Nodup) :
    (∀ rt rt' : Runtime, s.createSignerQueue rt cfg = s.createSignerQueue rt' cfg) ↔
      ¬ LevelElection cfg s :=
  ⟨fun h hlev ↦ hlev.createSignerQueue_ne hhist (h _ _),
    fun h ↦ createSignerQueue_eq_of_not_level hhist h⟩

/-- The end of the first loop of three signers, whose queue is only reordered. -/
theorem queue_determined_first_loop :
    let extra := { HeaderExtra.zero with signerQueue := [1, 2, 3] }
    ∃ s, smallStart.apply (fun _ ↦ .inOrder) .byNumber .small
        [.ofExtra 1 extra, .ofExtra 2 extra] = .ok s ∧
      s.createSignerQueue .inOrder .small = .ok [1, 2, 3] ∧
      ∀ rt rt' : Runtime, s.createSignerQueue rt .small = s.createSignerQueue rt' .small := by
  intro extra
  refine Outcome.exists_ok_imp (P := fun s ↦ s.createSignerQueue .inOrder .small = .ok [1, 2, 3] ∧
    s.historyHash.Nodup) (by decide +kernel) (fun s _ hs ↦ ⟨hs.1, ?_⟩)
  exact (queue_determined_iff .small s hs.2).mpr (fun h ↦ absurd h.official (by decide))

def officialConfig : Config :=
  { Config.small with
    maxSignerCount := 21
    maxSignerCount_ne := by decide }

/-- After ten loops with 31 candidates the queue depends on the procedure. -/
theorem official_queue_not_determined :
    let votes : List Vote := (List.range 31).map (fun i ↦ ⟨.ofNat 160 (i + 1), .ofNat 160 (i + 1), 5⟩)
    let headers : List Header := (List.range 209).map (fun i ↦ .ofExtra (i + 1) .zero)
    ∃ s, (newSnapshot officialConfig 0 0 votes defaultLoopCntRecalculateSigners).apply
        (fun _ ↦ .inOrder) .byNumber officialConfig headers = .ok s ∧ s.historyHash.Nodup ∧
      s.createSignerQueue .inOrder officialConfig ≠ s.createSignerQueue .backward officialConfig := by
  intro votes headers
  refine Outcome.exists_ok_imp (P := fun s ↦ s.number = 209 ∧ s.lcrs = 10 ∧
    s.historyHash = (List.range 42).map (fun i ↦ .ofNat 256 (i + 168)) ∧ s.hash = 209 ∧ s.tally.size = 31)
    (by decide +kernel) (fun s _ hs ↦ ?_)
  obtain ⟨hnum, hlcrs, hhist, hhash, hsize⟩ := hs
  have hnd : s.historyHash.Nodup := by
    rw [hhist]
    decide +kernel
  have hlev : LevelElection officialConfig s := by
    refine ⟨?_, ?_, ?_, ?_, rfl, ?_, ?_⟩
    · rw [hnum]
      decide
    · rw [hhist, hhash]
      decide +kernel
    · rw [hlcrs]
      decide
    · rw [hnum, hlcrs]
      decide
    · rw [hsize]
      decide
    · rw [hhist, hsize]
      decide
  exact ⟨hnd, hlev.createSignerQueue_ne hnd⟩

end Snapshot

end BjutEth.Alien
