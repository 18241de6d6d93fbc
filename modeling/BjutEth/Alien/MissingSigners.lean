import BjutEth.Alien.SealQueue

namespace BjutEth.Alien

open List hiding not_lt
open Option
open Nat

def slotSigner (queue : List Address) (slot : ℕ) : Option Address := queue[slot % queue.length]?

def skippedSigners (queue : List Address) (a b : ℕ) : List Address :=
  (List.range' (a + 1) (b - (a + 1))).filterMap (slotSigner queue)

variable {queue : List Address} {i n a b : ℕ} {x last current : Address}

theorem slotSigner_isSome (h : queue ≠ []) (slot : ℕ) : ∃ x, slotSigner queue slot = some x :=
  ⟨_, getElem?_eq_getElem (mod_lt slot (length_pos_iff.mpr h))⟩

theorem slotSigner_mod (queue : List Address) (slot : ℕ) :
    slotSigner queue (slot % queue.length) = slotSigner queue slot := by
  rw [slotSigner, slotSigner, mod_mod]

theorem slotSigner_of_lt {slot : ℕ} (h : slot < queue.length) : slotSigner queue slot = queue[slot]? := by
  rw [slotSigner, mod_eq_of_lt h]

theorem slotSigner_inj (hnd : queue.Nodup) {j : ℕ} (hi : slotSigner queue i = some x)
    (hj : slotSigner queue j = some x) : i ≡ j [MOD queue.length] := by
  have hlt : i % queue.length < queue.length := (List.getElem?_eq_some_iff.mp hi).1
  exact (getElem?_inj hlt hnd).mp (hi.trans hj.symm)

/-! The queue twice in a row holds the signers of the slots of two loops. -/

theorem getElem?_doubled (queue : List Address) (hi : i < 2 * queue.length) :
    (queue ++ queue)[i]? = slotSigner queue i := by
  by_cases hlt : i < queue.length
  · rw [getElem?_append_left hlt, slotSigner_of_lt hlt]
  rw [getElem?_append_right (not_lt.mp hlt), slotSigner, mod_eq_sub_mod (not_lt.mp hlt),
    mod_eq_of_lt (by omega)]

theorem take_drop_doubled (h : i + n ≤ 2 * queue.length) :
    ((queue ++ queue).drop i).take n = (List.range' i n).filterMap (slotSigner queue) := by
  induction n generalizing i with
  | zero => rfl
  | succ n ih =>
    have hlt : i < (queue ++ queue).length := by
      rw [length_append]
      omega
    have hhead := getElem?_doubled queue (i := i) (by omega)
    rw [getElem?_eq_getElem hlt] at hhead
    rw [drop_eq_getElem_cons hlt, take_succ_cons, range'_succ,
      filterMap_cons_some hhead.symm, ih (by omega)]

theorem skippedSigners_mod (queue : List Address) (a n : ℕ) :
    skippedSigners queue (a % queue.length) (a % queue.length + n) =
      skippedSigners queue a (a + n) := by
  have hrange : List.range' (a + 1) (a + n - (a + 1)) =
      (List.range' (a % queue.length + 1) (a + n - (a + 1))).map
        (queue.length * (a / queue.length) + ·) := by
    rw [map_add_range']
    congr 1
    have := div_add_mod a queue.length
    omega
  have hcnt : a % queue.length + n - (a % queue.length + 1) = a + n - (a + 1) := by omega
  rw [skippedSigners, skippedSigners, hrange, filterMap_map, hcnt]
  refine filterMap_congr fun c _ ↦ ?_
  rw [Function.comp_apply, slotSigner, slotSigner, mul_add_mod]

/-! The scan for missing signers. -/

theorem missingAfter_true (last current : Address) (queue : List Address) :
    missingAfter last current true queue = queue.takeWhile (· ≠ current) := by
  induction queue with
  | nil => rfl
  | cons signer queue ih =>
    rw [missingAfter]
    split_ifs with h
    · rw [takeWhile_cons_of_neg (by simpa using h)]
    · rw [takeWhile_cons_of_pos (by simpa using h), ih]

theorem missingAfter_false (hi : queue[i]? = some last) (hfst : ∀ j < i, queue[j]? ≠ some last) :
    missingAfter last current false queue = (queue.drop (i + 1)).takeWhile (· ≠ current) := by
  induction i generalizing queue with
  | zero =>
    cases queue with
    | nil => cases hi
    | cons signer queue =>
      rw [missingAfter, decide_eq_true (some.inj hi), missingAfter_true]
      rfl
  | succ i ih =>
    cases queue with
    | nil => cases hi
    | cons signer queue =>
      have hne : signer ≠ last := fun h ↦ hfst 0 (succ_pos i) (congrArg some h)
      rw [missingAfter, decide_eq_false hne]
      exact ih hi fun j hj ↦ hfst (j + 1) (succ_lt_succ hj)

theorem takeWhile_ne_eq_take (hn : queue[n]? = some current) (hfst : ∀ j < n, queue[j]? ≠ some current) :
    queue.takeWhile (· ≠ current) = queue.take n := by
  induction n generalizing queue with
  | zero =>
    cases queue with
    | nil => cases hn
    | cons signer queue =>
      have heq : signer = current := some.inj hn
      rw [takeWhile_cons_of_neg (by simpa using heq), take_zero]
  | succ n ih =>
    cases queue with
    | nil => cases hn
    | cons signer queue =>
      have hne : signer ≠ current := fun h ↦ hfst 0 (succ_pos n) (congrArg some h)
      rw [takeWhile_cons_of_pos (by simpa using hne), take_succ_cons,
        ih hn fun j hj ↦ hfst (j + 1) (succ_lt_succ hj)]

theorem takeWhile_doubled (hnd : queue.Nodup) (hi : i < queue.length) (hn : 0 < n)
    (hle : n ≤ queue.length) (hcur : slotSigner queue (i + n) = some current) :
    ((queue ++ queue).drop (i + 1)).takeWhile (· ≠ current) = skippedSigners queue i (i + n) := by
  have hget : ∀ k, k < n → ((queue ++ queue).drop (i + 1))[k]? = slotSigner queue (i + 1 + k) :=
    fun k hk ↦ by rw [getElem?_drop, getElem?_doubled queue (by omega)]
  have hlast : ((queue ++ queue).drop (i + 1))[n - 1]? = some current := by
    rw [hget (n - 1) (by omega), ← hcur]
    congr 1
    omega
  have hfst : ∀ k < n - 1, ((queue ++ queue).drop (i + 1))[k]? ≠ some current := by
    intro k hk hk'
    rw [hget k (by omega)] at hk'
    have hmod := slotSigner_inj hnd hk' hcur
    have hle' := (modEq_iff_dvd' (by omega)).mp hmod
    have := le_of_dvd (by omega) hle'
    omega
  rw [takeWhile_ne_eq_take hlast hfst, take_drop_doubled (by omega)]
  congr 2
  omega

theorem missing_same_loop (hnd : queue.Nodup) (hab : a < b) (hb : b ≤ a + queue.length)
    (hlast : slotSigner queue a = some last) (hcur : slotSigner queue b = some current) :
    missingAfter last current false (queue ++ queue) = skippedSigners queue a b := by
  obtain ⟨n, rfl⟩ := Nat.exists_eq_add_of_le hab.le
  have hi : a % queue.length < queue.length := (List.getElem?_eq_some_iff.mp hlast).1
  have hst : (queue ++ queue)[a % queue.length]? = some last := by
    rw [getElem?_doubled queue (by omega), slotSigner_mod, hlast]
  have hfst : ∀ j < a % queue.length, (queue ++ queue)[j]? ≠ some last := by
    intro j hj hj'
    rw [getElem?_doubled queue (by omega)] at hj'
    have hmod := slotSigner_inj hnd hj' hlast
    rw [ModEq, mod_eq_of_lt (by omega)] at hmod
    omega
  rw [missingAfter_false hst hfst, ← skippedSigners_mod]
  refine takeWhile_doubled hnd hi (by omega) (by omega) ?_
  rw [← hcur, slotSigner, slotSigner, mod_add_mod]

theorem missing_cross_loop (hnd : queue.Nodup) (hab : a < b) (hb : b ≤ a + queue.length)
    (hcur : slotSigner queue b = some current) :
    missingAfter last current false
        (((queue ++ queue).set (a % queue.length) last).drop (a % queue.length)) =
      skippedSigners queue a b := by
  obtain ⟨n, rfl⟩ := Nat.exists_eq_add_of_le hab.le
  have hi : a % queue.length < queue.length := mod_lt a (by omega)
  have hlt : a % queue.length < (queue ++ queue).length := by
    rw [length_append]
    omega
  have hhead : (((queue ++ queue).set (a % queue.length) last).drop (a % queue.length))[0]? =
      some last := by
    rw [getElem?_drop, Nat.add_zero, getElem?_set_self hlt]
  rw [missingAfter_false hhead fun j hj ↦ absurd hj (Nat.not_lt_zero j), drop_drop,
    drop_set_of_lt (lt_succ_self _), ← skippedSigners_mod]
  refine takeWhile_doubled hnd hi (by omega) (by omega) ?_
  rw [← hcur, slotSigner, slotSigner, mod_add_mod]

theorem inturn_slotSigner {cfg : Config} {s : Snapshot} {headerTime : UInt64} (hper : cfg.period ≠ 0)
    (hlen : s.signers.length < 2 ^ 64)
    (hx : slotSigner s.signers ((headerTime - s.loopStartTime) / cfg.period).toNat = some x) :
    s.inturn cfg x headerTime = .ok true := by
  have hne : s.signers ≠ [] := by
    intro hnil
    rw [hnil] at hx
    cases hx
  have hind : (((headerTime - s.loopStartTime) / cfg.period) % .ofNat s.signers.length).toNat =
      ((headerTime - s.loopStartTime) / cfg.period).toNat % s.signers.length := by
    rw [UInt64.toNat_mod, UInt64.toNat_ofNat_of_lt' hlen]
  rw [Snapshot.inturn, if_neg (by simpa using hne), if_neg hper]
  simp only [hind]
  rw [← slotSigner, hx, beq_self_eq_true]

theorem getElem?_skippedSigners (hne : queue ≠ []) {c : ℕ} (hac : a < c) (hcb : c < b) :
    (skippedSigners queue a b)[c - (a + 1)]? = slotSigner queue c := by
  have hsome : ∀ c, slotSigner queue c = some ((slotSigner queue c).getD 0) := by
    intro c
    obtain ⟨x, hx⟩ := slotSigner_isSome hne c
    rw [hx, getD_some]
  have hmap : skippedSigners queue a b =
      (List.range' (a + 1) (b - (a + 1))).map fun c ↦ (slotSigner queue c).getD 0 := by
    rw [← filterMap_eq_map]
    exact filterMap_congr fun c _ ↦ hsome c
  rw [hmap, getElem?_map, getElem?_range' (by omega), map_some, hsome c]
  congr 3
  omega

theorem idxOf?_of_nodup (hnd : queue.Nodup) (hi : queue[i]? = some x) : queue.idxOf? x = some i := by
  obtain ⟨hlt, hget⟩ := List.getElem?_eq_some_iff.mp hi
  refine idxOf?_eq_some_iff.mpr ⟨hlt, hget, fun j hj heq ↦ ?_⟩
  have := (List.Nodup.getElem_inj_iff hnd).mp (heq.trans hget.symm)
  omega

/-- Exactly the signers of the skipped slots are missing, inside a loop and from one queue to
the next. -/
theorem getSignerMissingTrantor_eq_skipped (cfg : Config) {extra gpExtra : HeaderExtra}
    (hlen : extra.signerQueue.length = cfg.maxSignerCount.toNat)
    (hlen' : gpExtra.signerQueue.length = cfg.maxSignerCount.toNat)
    (hnd : extra.signerQueue.Nodup) (hnodup' : gpExtra.signerQueue.Nodup) {a b : ℕ}
    (hab : a < b) (hb : b ≤ a + cfg.maxSignerCount.toNat) {last last' current : Address}
    (hlast : extra.signerQueue[a % cfg.maxSignerCount.toNat]? = some last)
    (hlast' : gpExtra.signerQueue[a % cfg.maxSignerCount.toNat]? = some last')
    (hcur : extra.signerQueue[b % cfg.maxSignerCount.toNat]? = some current) :
    (∃ kept, getSignerMissingTrantor last current extra .zero =
      .ok (skippedSigners extra.signerQueue a b, kept)) ∧
    (∃ kept, getSignerMissingTrantor last' current extra gpExtra =
      .ok (skippedSigners extra.signerQueue a b, kept)) ∧
    ∀ (s : Snapshot) (headerTime : UInt64), s.signers = extra.signerQueue → cfg.period ≠ 0 →
      a < ((headerTime - s.loopStartTime) / cfg.period).toNat →
      ((headerTime - s.loopStartTime) / cfg.period).toNat < b →
      ∃ x, (skippedSigners extra.signerQueue a b)[
          ((headerTime - s.loopStartTime) / cfg.period).toNat - (a + 1)]? = some x ∧
        s.inturn cfg x headerTime = .ok true := by
  have hidx := idxOf?_of_nodup hnodup' hlast'
  rw [← hlen] at hb hlast hcur hidx
  have hpos : 0 < extra.signerQueue.length := by omega
  refine ⟨⟨_, congrArg (fun m ↦ Except.ok (m, _))
    (missing_same_loop hnd hab hb hlast hcur)⟩, ?_, ?_⟩
  · have hind : ¬ (extra.signerQueue ++ extra.signerQueue).length ≤
        a % extra.signerQueue.length := by
      have := mod_lt a hpos
      rw [length_append]
      omega
    simp only [getSignerMissingTrantor, hidx, if_neg hind]
    exact ⟨_, congrArg (fun m ↦ Except.ok (m, _))
      (missing_cross_loop hnd hab hb hcur)⟩
  intro s headerTime hsgs hper hac hcb
  have hne : extra.signerQueue ≠ [] := length_pos_iff.mp hpos
  obtain ⟨x, hx⟩ := slotSigner_isSome hne ((headerTime - s.loopStartTime) / cfg.period).toNat
  refine ⟨x, (getElem?_skippedSigners hne hac hcb).trans hx, inturn_slotSigner hper ?_ ?_⟩
  · rw [hsgs, hlen]
    exact cfg.maxSignerCount.toNat_lt
  · rw [hsgs, hx]

/-- Signer 3 seals, signers 1 and 2 skip their slots, and signer 3 seals again. -/
theorem getSignerMissingTrantor_eq_skipped_small :
    ∃ kept, getSignerMissingTrantor 3 3 { HeaderExtra.zero with signerQueue := [1, 2, 3] } .zero =
      .ok (skippedSigners [1, 2, 3] 2 5, kept) :=
  (@getSignerMissingTrantor_eq_skipped Config.small
    { HeaderExtra.zero with signerQueue := [1, 2, 3] }
    { HeaderExtra.zero with signerQueue := [3, 1, 2] } rfl rfl (by decide) (by decide) 2 5
    (by decide) (by decide) 3 2 3 rfl rfl rfl).1

/-! Queues with repetitions. -/

theorem missing_eq_nil_iff (hlast : last ∈ queue) :
    missingAfter last current false (queue ++ queue) = [] ↔
      slotSigner queue (queue.idxOf last + 1) = some current := by
  have hidx : queue.idxOf last < queue.length := idxOf_lt_length_of_mem hlast
  have hget : (queue ++ queue)[queue.idxOf last]? = some last := by
    rw [getElem?_append_left hidx, getElem?_eq_getElem hidx, getElem_idxOf]
  have hfst : ∀ j < queue.idxOf last, (queue ++ queue)[j]? ≠ some last := by
    intro j hj hj'
    rw [getElem?_append_left (hj.trans hidx)] at hj'
    obtain ⟨hlt, heq⟩ := List.getElem?_eq_some_iff.mp hj'
    exact absurd heq (by simpa using not_of_lt_findIdx hj)
  have hnext : queue.idxOf last + 1 < (queue ++ queue).length := by
    rw [length_append]
    omega
  have hslot := getElem?_doubled queue (i := queue.idxOf last + 1) (by omega)
  rw [getElem?_eq_getElem hnext] at hslot
  rw [missingAfter_false hget hfst, ← hslot, drop_eq_getElem_cons hnext, some.injEq]
  by_cases h : (queue ++ queue)[queue.idxOf last + 1] = current
  · rw [takeWhile_cons_of_neg (by simpa using h)]
    exact ⟨fun _ ↦ h, fun _ ↦ rfl⟩
  · rw [takeWhile_cons_of_pos (by simpa using h)]
    exact ⟨by simp, fun h' ↦ absurd h' h⟩

theorem mem_of_slotSigner {slot : ℕ} (h : slotSigner queue slot = some x) : x ∈ queue := mem_of_getElem? h

theorem missing_eq_nil_all_iff (queue : List Address) :
    (∀ slot last current, slotSigner queue slot = some last →
      slotSigner queue (slot + 1) = some current →
        missingAfter last current false (queue ++ queue) = []) ↔
      ∀ i j, slotSigner queue i = slotSigner queue j →
        slotSigner queue (i + 1) = slotSigner queue (j + 1) := by
  by_cases hne : queue = []
  · subst hne
    exact ⟨fun _ _ _ _ ↦ rfl, fun _ _ _ _ h ↦ by cases h⟩
  have hself : ∀ {x : Address}, x ∈ queue → slotSigner queue (queue.idxOf x) = some x := by
    intro x hx
    have hlt := idxOf_lt_length_of_mem hx
    rw [slotSigner_of_lt hlt, getElem?_eq_getElem hlt, getElem_idxOf]
  constructor
  · intro h
    have hfst : ∀ {slot x}, slotSigner queue slot = some x →
        slotSigner queue (slot + 1) = slotSigner queue (queue.idxOf x + 1) := by
      intro slot x hx
      obtain ⟨current, hcur⟩ := slotSigner_isSome hne (slot + 1)
      rw [(missing_eq_nil_iff (mem_of_slotSigner hx)).mp (h slot x current hx hcur), hcur]
    intro i j hij
    obtain ⟨x, hx⟩ := slotSigner_isSome hne i
    exact (hfst hx).trans (hfst (hij ▸ hx)).symm
  intro h slot last current hlast hcur
  have hmem := mem_of_slotSigner hlast
  rw [missing_eq_nil_iff hmem, ← hcur]
  exact h _ _ ((hself hmem).trans hlast.symm)

theorem slotSigner_cycle {l : List Address} (hl : l ≠ []) (hn : 0 < n) (slot : ℕ) :
    slotSigner (cycle n l) slot = l[slot % n % l.length]? := by
  have hlt : ∀ i, i % l.length < l.length := fun i ↦ mod_lt i (length_pos_iff.mpr hl)
  have hmap : cycle n l = (List.range n).map fun i ↦ l.get ⟨i % l.length, hlt i⟩ := by
    rw [← filterMap_eq_map]
    refine filterMap_congr fun i _ ↦ ?_
    rw [getElem?_eq_getElem (hlt i)]
    rfl
  rw [slotSigner, length_cycle n hl, hmap, getElem?_map, getElem?_range (mod_lt slot hn),
    getElem?_eq_getElem (hlt _)]
  rfl

theorem cycle_successors_iff {l : List Address} (hl : l ≠ []) (hnd : l.Nodup) (hn : l.length ≤ n) :
    (∀ i j, slotSigner (cycle n l) i = slotSigner (cycle n l) j →
      slotSigner (cycle n l) (i + 1) = slotSigner (cycle n l) (j + 1)) ↔ l.length ∣ n := by
  have hpos := length_pos_iff.mpr hl
  have hget := slotSigner_cycle hl (hpos.trans_le hn)
  have hinj : ∀ {i j : ℕ}, i < l.length → l[i]? = l[j]? → i = j := fun hi h ↦
    (getElem?_inj hi hnd).mp h
  constructor
  · intro h
    -- the last slot and the first slot of its signer
    have hlast : (n - 1) % l.length < l.length := mod_lt _ hpos
    have hsame : slotSigner (cycle n l) (n - 1) = slotSigner (cycle n l) ((n - 1) % l.length) := by
      rw [hget, hget, mod_eq_of_lt (by omega : n - 1 < n), mod_eq_of_lt (hlast.trans_le hn),
        mod_mod]
    have hnext := h _ _ hsame
    rw [hget, hget, Nat.sub_add_cancel (hpos.trans_le hn), mod_self] at hnext
    by_contra hdvd
    have hlt : (n - 1) % l.length + 1 < l.length := by
      by_contra hge
      refine hdvd ((dvd_iff_mod_eq_zero).mpr ?_)
      have hn' : n = n - 1 + 1 := by omega
      have hone : (n - 1) % l.length = l.length - 1 := by omega
      rw [hn', ← mod_add_mod, hone, Nat.sub_add_cancel hpos, mod_self]
    rw [mod_eq_of_lt (hlt.trans_le hn), mod_eq_of_lt hlt] at hnext
    exact absurd (hinj hpos hnext) (by omega)
  intro hdvd i j hij
  rw [hget, hget, mod_mod_of_dvd _ hdvd, mod_mod_of_dvd _ hdvd] at hij
  have hmod : i % l.length = j % l.length := hinj (mod_lt i hpos) hij
  rw [hget, hget, mod_mod_of_dvd _ hdvd, mod_mod_of_dvd _ hdvd, ← mod_add_mod i,
    ← mod_add_mod j, hmod]

/-- From one slot to the next nobody is punished exactly if the signer after the first slot of
the last signer is the current one; in every slot of a queue, exactly if the signers follow each
other alike; and where distinct signers fill the queue, if their number divides its length. -/
theorem unpunished_iff {rt : Runtime} {cfg : Config} {s : Snapshot} {extra : HeaderExtra}
    (h : s.createSignerQueue rt cfg = .ok extra.signerQueue) :
    (∀ slot last current, slotSigner extra.signerQueue slot = some last →
      slotSigner extra.signerQueue (slot + 1) = some current →
      ((∃ kept, getSignerMissingTrantor last current extra .zero = .ok ([], kept)) ↔
        slotSigner extra.signerQueue (extra.signerQueue.idxOf last + 1) = some current)) ∧
    ((∀ slot last current, slotSigner extra.signerQueue slot = some last →
      slotSigner extra.signerQueue (slot + 1) = some current →
      ∃ kept, getSignerMissingTrantor last current extra .zero = .ok ([], kept)) ↔
        ∀ i j, slotSigner extra.signerQueue i = slotSigner extra.signerQueue j →
          slotSigner extra.signerQueue (i + 1) = slotSigner extra.signerQueue (j + 1)) ∧
    ∃ items, s.queueItems rt cfg = .ok items ∧ ((items.map (·.addr)).Nodup →
      items.length ≤ (goInt cfg.maxSignerCount).toNat →
      ((∀ slot last current, slotSigner extra.signerQueue slot = some last →
        slotSigner extra.signerQueue (slot + 1) = some current →
        ∃ kept, getSignerMissingTrantor last current extra .zero = .ok ([], kept)) ↔
          items.length ∣ (goInt cfg.maxSignerCount).toNat)) := by
  have hmis : ∀ last current, (∃ kept, getSignerMissingTrantor last current extra .zero =
      .ok ([], kept)) ↔
        missingAfter last current false (extra.signerQueue ++ extra.signerQueue) = [] := by
    intro last current
    refine ⟨fun h ↦ ?_, fun hnil ↦ ⟨_, congrArg (fun m ↦ Except.ok (m, _)) hnil⟩⟩
    obtain ⟨_, hkept⟩ := h
    exact (Prod.mk.inj (Except.ok.inj hkept)).1
  simp only [hmis]
  refine ⟨fun slot last current hlast _ ↦ missing_eq_nil_iff (mem_of_slotSigner hlast),
    missing_eq_nil_all_iff _, ?_⟩
  obtain ⟨-, -, items, hits, hne, hfill⟩ := Snapshot.createSignerQueue_eq_ok.mp h
  refine ⟨items, hits, fun hnd hle ↦ ?_⟩
  have hperm := (rt.sort_perm signerLess items).map (·.addr)
  have hlen : ((rt.sort signerLess items).map (·.addr)).length = items.length := by
    rw [hperm.length_eq, length_map]
  rw [missing_eq_nil_all_iff, ← hfill, Snapshot.fillQueue, cycle_successors_iff, hlen]
  · intro hnil
    rw [hnil] at hlen
    exact hne (eq_nil_of_length_eq_zero hlen.symm)
  · exact hperm.nodup_iff.mpr hnd
  · rw [hlen]
    exact hle

/-- Three distinct signers after the first loop. -/
theorem unpunished_iff_first_loop :
    let extra := { HeaderExtra.zero with signerQueue := [1, 2, 3] }
    ∃ s kept, smallStart.apply (fun _ ↦ .inOrder) .byNumber .small
        [.ofExtra 1 extra, .ofExtra 2 extra] = .ok s ∧
      s.createSignerQueue .inOrder .small = .ok [1, 2, 3] ∧
      getSignerMissingTrantor 3 1 extra .zero = .ok ([], kept) := by
  intro extra
  obtain ⟨s, hs, hque⟩ : ∃ s, smallStart.apply (fun _ ↦ .inOrder) .byNumber
      .small [.ofExtra 1 extra, .ofExtra 2 extra] = .ok s ∧
      s.createSignerQueue .inOrder .small = .ok [1, 2, 3] := by decide +kernel
  have hcur : slotSigner [1, 2, 3] 3 = some 1 := by decide
  have hnext : slotSigner [1, 2, 3] (List.idxOf 3 [1, 2, 3] + 1) = some 1 := by decide
  obtain ⟨kept, hkept⟩ := ((@unpunished_iff _ _ _ extra hque).1 2 3 1 rfl hcur).mpr hnext
  exact ⟨s, kept, hs, hque, hkept⟩

/-- After ten loops two candidates fill a queue of three. Signer 1 is punished when signer 2 has
the last slot of a loop and the first one of the next, although no slot lies between them. -/
theorem present_signer_punished :
    let votes : List Vote := [⟨1, 1, 5⟩, ⟨2, 2, 5⟩]
    let headers : List Header := (List.range 29).map (fun i ↦ .ofExtra (i + 1) .zero)
    ∃ s, (newSnapshot .small 0 0 votes defaultLoopCntRecalculateSigners).apply (fun _ ↦ .inOrder)
        .byNumber .small headers = .ok s ∧
      s.createSignerQueue .inOrder .small = .ok [2, 1, 2] ∧
      slotSigner [2, 1, 2] 2 = some 2 ∧ slotSigner [2, 1, 2] 3 = some 2 ∧
      getSignerMissingTrantor 2 2 { HeaderExtra.zero with signerQueue := [2, 1, 2] } .zero =
        .ok ([1], [2, 1, 2]) := by
  intro votes headers
  decide +kernel

end BjutEth.Alien
