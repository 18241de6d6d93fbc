import BjutEth.Alien.Runs

namespace BjutEth.Alien.Snapshot

open Outcome List UInt64 Function GoMap

def maxScore : ℕ := 10 * defaultFullCredit.toNat + missingPublishCredit.toNat

def raise (score : ℕ) : ℕ :=
  if score ≤ 10 * defaultFullCredit.toNat then score + missingPublishCredit.toNat else score

/-- The punishment of one header, on natural numbers. -/
def punishScores (cfg : Config) (missing : List Address) (n : ℤ) (coinbase : Address)
    (f : Address → ℕ) (a : Address) : ℕ :=
  if cfg.isTrantor n && !cfg.isTrantor (n - 1) then 0
  else raise^[missing.count a] (f a) - (if a = coinbase then signRewardCredit.toNat else 0) -
    autoRewardCredit.toNat

def entry (score : ℕ) : Option UInt64 := if score = 0 then none else some (.ofNat score)

/-- The map holds the scores `f`, those above zero and no others. -/
structure Scores (m : GoMap Address UInt64) (f : Address → ℕ) : Prop where
  get : ∀ a, m[a]? = entry (f a)
  le : ∀ a, f a ≤ maxScore

/-- Taking away `c`, where what has no more than `c` is taken out. -/
theorem lower_entry {v c : ℕ} (hv : v < size) (hc : c < size) :
    (entry v).bind (fun count ↦ if count > .ofNat c then some (count - .ofNat c) else none) =
      entry (v - c) := by
  unfold entry
  by_cases h0 : v = 0
  · rw [if_pos h0, if_pos (by omega)]
    rfl
  rw [if_neg h0, Option.bind_some]
  simp only [ofNat_lt_iff_lt hc hv]
  split_ifs with hlt hz hz
  · omega
  · rw [ofNat_sub hlt.le]
  · rfl
  omega

namespace Scores

variable {m m' : GoMap Address UInt64} {f : Address → ℕ} {a x : Address} {v : ℕ}

section

variable (h : Scores m f)

include h

theorem lt (a : Address) : f a < size := (h.le a).trans_lt (by decide)

theorem put (hv : v ≤ maxScore) (hx : m'[x]? = entry v)
    (hne : ∀ a, x ≠ a → m'[a]? = m[a]?) : Scores m' (update f x v) := by
  constructor <;> intro a <;> by_cases ha : a = x
  · rw [ha, update_self, hx]
  · rw [update_of_ne ha, hne a (Ne.symm ha), h.get]
  · rwa [ha, update_self]
  · rw [update_of_ne ha]
    exact h.le a

theorem insert (h0 : v ≠ 0) (hv : v ≤ maxScore) :
    Scores (Std.ExtTreeMap.insert m x (.ofNat v)) (update f x v) :=
  h.put hv (by rw [get_insert, if_pos rfl, entry, if_neg h0])
    (fun _ ha ↦ by rw [get_insert, if_neg ha])

theorem punishMissing (x : Address) :
    Scores (punishMissing m x) (update f x (raise (f x))) := by
  unfold Snapshot.punishMissing raise
  rw [h.get x, entry]
  by_cases h0 : f x = 0
  · rw [if_pos h0, h0]
    exact h.insert (v := 100) (by decide) (by decide)
  have hiff : ofNat (f x) ≤ 10 * defaultFullCredit ↔ f x ≤ 10 * defaultFullCredit.toNat :=
    ofNat_le_iff_le (b := 288000) (h.lt x) (by decide)
  simp only [if_neg h0, hiff]
  split_ifs with hr
  · have hadd : ofNat (f x) + missingPublishCredit = .ofNat (f x + 100) :=
      (ofNat_add _ _).symm
    rw [hadd]
    exact h.insert (by omega) (Nat.add_le_add_right hr _)
  rwa [update_eq_self]

theorem foldl_punishMissing (missing : List Address) :
    Scores (missing.foldl Snapshot.punishMissing m) (fun a ↦ raise^[missing.count a] (f a)) := by
  induction missing generalizing m f with
  | nil => exact h
  | cons x missing ih =>
    have hstep := ih (h.punishMissing x)
    have hfun : (fun a ↦ raise^[(x :: missing).count a] (f a)) =
        fun a ↦ raise^[missing.count a] (update f x (raise (f x)) a) := by
      funext a
      rw [update_apply]
      split_ifs with ha
      · rw [ha, count_cons_self, iterate_succ_apply]
      rw [count_cons_of_ne (Ne.symm ha)]
    rwa [hfun]

theorem rewardSigner (x : Address) :
    Scores (rewardSigner m x) (update f x (f x - signRewardCredit.toNat)) := by
  have hlow := lower_entry (h.lt x) (c := signRewardCredit.toNat) (by decide)
  rw [← h.get x, UInt64.ofNat_toNat] at hlow
  unfold Snapshot.rewardSigner
  refine h.put ((Nat.sub_le _ _).trans (h.le x)) (hlow ▸ ?_) (fun a ha ↦ ?_) <;> split
  · next count hx =>
    rw [hx, Option.bind_some]
    split_ifs
    · rw [get_insert, if_pos rfl]
    rw [get_erase, if_pos rfl]
  · next hx =>
    rw [hx]
    rfl
  · split_ifs
    · rw [get_insert, if_neg ha]
    rw [get_erase, if_neg ha]
  rfl

theorem decay : Scores (m.filterMap (fun _ count ↦
      if count > autoRewardCredit then some (count - autoRewardCredit) else none))
      (fun a ↦ f a - autoRewardCredit.toNat) := by
  refine ⟨fun a ↦ ?_, fun a ↦ (Nat.sub_le _ _).trans (h.le a)⟩
  rw [← lower_entry (h.lt a) (by decide), ← h.get]
  exact Std.ExtTreeMap.getElem?_filterMap' ..

theorem count_bounds {count : UInt64} (ha : m[a]? = some count) :
    1 ≤ count ∧ count ≤ 10 * defaultFullCredit + missingPublishCredit := by
  have hle : f a ≤ 288100 := h.le a
  rw [h.get, entry] at ha
  split_ifs at ha with h0
  cases ha
  exact ⟨(ofNat_le_iff_le (a := 1) (by decide) (h.lt a)).mpr (by omega),
    (ofNat_le_iff_le (b := 288100) (h.lt a) (by decide)).mpr hle⟩

end

theorem empty : Scores ∅ (fun _ ↦ 0) := ⟨fun _ ↦ by simp [entry], fun _ ↦ Nat.zero_le _⟩

theorem updateSnapshotForPunish {s : Snapshot} (h : Scores s.punished f) (cfg : Config)
    (missing : List Address) (n : ℤ) (coinbase : Address) :
    Scores (s.updateSnapshotForPunish cfg missing n coinbase).punished
      (punishScores cfg missing n coinbase f) := by
  unfold Snapshot.updateSnapshotForPunish punishScores
  split_ifs
  · exact empty
  have hall := ((h.foldl_punishMissing missing).rewardSigner coinbase).decay
  convert hall using 2 with a
  rw [update_apply]
  split_ifs with ha
  · rw [ha]
  rfl

end Scores

theorem creditWeight_eq (s : Snapshot) (a : Address) :
    s.creditWeight a = max (minCalSignerQueueCredit.toNat : ℤ)
      (defaultFullCredit.toNat - (s.punished[a]?.getD 0).toNat) := by
  unfold creditWeight
  split
  · next count hx =>
    rw [hx, Option.getD_some]
    have hiff : count > defaultFullCredit - minCalSignerQueueCredit ↔ 18800 < count.toNat :=
      lt_iff_toNat_lt
    simp only [hiff]
    split_ifs with hlt
    · rw [max_eq_left]
      show (28800 : ℤ) - _ ≤ 10000
      omega
    have hsub : (defaultFullCredit - count).toNat = 28800 - count.toNat :=
      UInt64.toNat_sub_of_le _ _ (le_iff_toNat_le.mpr (by show _ ≤ 28800; omega))
    rw [hsub, max_eq_right]
    · show ((28800 - _ : ℕ) : ℤ) = 28800 - _
      omega
    show (10000 : ℤ) ≤ 28800 - _
    omega
  · next hx =>
    rw [hx]
    rfl

theorem mem_buildTallySlice {rt : Runtime} {s : Snapshot} {item : TallyItem}
    (h : item ∈ s.buildTallySlice rt) : ∃ t, s.tally[item.addr]? = some t ∧
      item.stake = t * s.creditWeight item.addr := by
  obtain ⟨e, he, hitem⟩ := mem_filterMap.mp h
  split_ifs at hitem
  cases hitem
  have hmem := (rt.rangeOrder_perm _).mem_iff.mp he
  exact ⟨e.2, Std.ExtTreeMap.mem_toList_iff_getElem?_eq_some.mp hmem, rfl⟩

theorem applyAll_scores {rt : UInt64 → Runtime} {crypto : Crypto} {cfg : Config}
    {batches : List (List Header)} {s : Snapshot} (hs : ∃ f, Scores s.punished f) :
    Ensures (s.applyAll rt crypto cfg batches) (fun s ↦ ∃ f, Scores s.punished f) := by
  refine Ensures.foldlM batches hs (fun s hs headers _ ↦ ?_)
  refine apply_ensures (P := fun s ↦ ∃ f, Scores s.punished f) id
    (fun header _ s hs ↦ applyHeader_ensures (fun extra _ update hu s hs t ht ↦ ?_) hs)
    (fun _ _ _ h ↦ h) hs
  obtain ⟨f, hf⟩ := hs
  obtain h | rfl := subUpdates_scorePart update hu s t ht
  · have hpun : t.punished = s.punished := congrArg Prod.snd h
    exact ⟨f, hpun ▸ hf⟩
  exact ⟨_, hf.updateSnapshotForPunish ..⟩

/-- In every run from genesis the scores stay in range, and are those of natural numbers. -/
theorem punishment_scores_in_range (rt : UInt64 → Runtime) (crypto : Crypto) (cfg : Config)
    (now : UInt64) (hash : Hash) (lcrs : UInt64) (votes : List Vote)
    (batches : List (List Header)) :
    (∀ s, (newSnapshot cfg now hash votes lcrs).applyAll rt crypto cfg batches = .ok s →
      (∀ (a : Address) count, s.punished[a]? = some count →
        1 ≤ count ∧ count ≤ 10 * defaultFullCredit + missingPublishCredit) ∧
      ∃ f, Scores s.punished f ∧ ∀ missing n coinbase,
        Scores (s.updateSnapshotForPunish cfg missing n coinbase).punished
          (punishScores cfg missing n coinbase f)) ∧
    ∀ (s : Snapshot) (a : Address),
      (∀ rt, ∀ item ∈ s.buildTallySlice rt, ∃ t, s.tally[item.addr]? = some t ∧
        item.stake = t * s.creditWeight item.addr) ∧
      s.creditWeight a = max (minCalSignerQueueCredit.toNat : ℤ)
        (defaultFullCredit.toNat - (s.punished[a]?.getD 0).toNat) ∧
      minCalSignerQueueCredit.toNat ≤ s.creditWeight a ∧
      s.creditWeight a ≤ defaultFullCredit.toNat ∧
      ∀ (t : Snapshot) (b : Address), s.punished[a]?.getD 0 ≤ t.punished[b]?.getD 0 →
        t.creditWeight b ≤ s.creditWeight a := by
  constructor
  · intro s hs
    have hnew : (newSnapshot cfg now hash votes lcrs).punished = ∅ :=
      foldl_keeps addGenesisVote punished (fun _ _ ↦ rfl) votes _
    obtain ⟨f, hf⟩ := applyAll_scores ⟨_, hnew ▸ Scores.empty⟩ s hs
    exact ⟨fun _ _ ↦ hf.count_bounds, f, hf, fun _ _ _ ↦ hf.updateSnapshotForPunish ..⟩
  intro s a
  have hs := creditWeight_eq s a
  refine ⟨fun rt item ↦ mem_buildTallySlice, hs, hs ▸ le_max_left _ _, ?_, fun t b hle ↦ ?_⟩
  · rw [hs]
    exact max_le (by decide) (by omega)
  rw [hs, creditWeight_eq t b]
  have hle := le_iff_toNat_le.mp hle
  exact max_le_max_left _ (by omega)

end BjutEth.Alien.Snapshot
