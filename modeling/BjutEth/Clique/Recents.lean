import BjutEth.Clique.Engine

namespace BjutEth.Clique

open List

namespace Snapshot

/-- The remembered signers after a run whose blocks were signed by `authors`: all of the last
`limit - 1`, and perhaps the one before. Block `k` is signed by the author with index `k - 1`. -/
structure Window (snap : Snapshot) (authors : List Address) : Prop where
  of_mem : ∀ {k : ℕ} {a : Address}, snap.recents[k]? = some a →
    1 ≤ k ∧ authors.length < k + snap.limit ∧ authors[k - 1]? = some a
  mem_of : ∀ {k : ℕ}, 1 ≤ k → authors.length + 1 < k + snap.limit →
    snap.recents[k]? = authors[k - 1]?

def Exact (snap : Snapshot) (authors : List Address) : Prop :=
  ∀ (k : ℕ) (a : Address), snap.recents[k]? = some a ↔
    1 ≤ k ∧ authors.length < k + snap.limit ∧ authors[k - 1]? = some a

def Fresh (snap : Snapshot) (authors : List Address) : Prop :=
  ∀ (k : ℕ) (a : Address), snap.recents[k]? = some a ↔
    1 ≤ k ∧ authors.length + 1 < k + snap.limit ∧ authors[k - 1]? = some a

variable {cfg : Config} {snap : Snapshot} {authors : List Address}

theorem window_new (number : ℕ) (hash : Hash) (signers : List Address) :
    (newSnapshot number hash signers).Window [] := by
  refine ⟨?_, ?_⟩
  · intro k a h
    simp [newSnapshot] at h
  · intro k hk h
    simp [newSnapshot]

theorem dropRecent_signers (snap : Snapshot) (number : ℕ) :
    (snap.dropRecent number).signers = snap.signers := by
  rw [dropRecent]
  split <;> rfl

theorem dropRecent_number (snap : Snapshot) (number : ℕ) :
    (snap.dropRecent number).number = snap.number := by
  rw [dropRecent]
  split <;> rfl

theorem dropRecent_limit (snap : Snapshot) (number : ℕ) :
    (snap.dropRecent number).limit = snap.limit := by
  rw [limit, limit, dropRecent_signers]

theorem getElem?_dropRecent (snap : Snapshot) (number k : ℕ) (a : Address) :
    (snap.dropRecent number).recents[k]? = some a ↔
      snap.recents[k]? = some a ∧ k + snap.limit ≠ number := by
  rw [dropRecent]
  by_cases hle : snap.limit ≤ number
  · rw [if_pos hle]
    simp only [GoMap.get_erase]
    split_ifs with hk
    · refine ⟨by simp, fun h ↦ ?_⟩
      omega
    · refine ⟨fun h ↦ ⟨h, by omega⟩, fun h ↦ h.1⟩
  · rw [if_neg hle]
    refine ⟨fun h ↦ ⟨h, by omega⟩, fun h ↦ h.1⟩

structure SameSigners (s t : Snapshot) : Prop where
  signers : t.signers = s.signers
  recents : t.recents = s.recents
  number : t.number = s.number

variable {signer : Address} {snap' s t : Snapshot} {recover : Header → Go Address} {header : Header}

theorem SameSigners.trans {u : Snapshot} (h : SameSigners s t) (h' : SameSigners t u) :
    SameSigners s u := ⟨h'.1.trans h.1, h'.2.trans h.2, h'.3.trans h.3⟩

theorem SameSigners.limit_eq (h : SameSigners s t) : t.limit = s.limit := by
  rw [limit, limit, h.1]

theorem sameSigners_resetVotes (cfg : Config) (snap : Snapshot) (number : ℕ) :
    SameSigners snap (snap.resetVotes cfg number) := by
  rw [resetVotes]
  split <;> exact ⟨rfl, rfl, rfl⟩

theorem Window.fresh (hw : snap.Window authors) (cfg : Config) :
    ((snap.resetVotes cfg (authors.length + 1)).dropRecent (authors.length + 1)).Fresh authors := by
  intro k a
  have hsame := sameSigners_resetVotes cfg snap (authors.length + 1)
  rw [getElem?_dropRecent, dropRecent_limit, hsame.limit_eq, hsame.recents]
  constructor
  · rintro ⟨hk, hne⟩
    obtain ⟨h1, hlt, ha⟩ := hw.of_mem hk
    exact ⟨h1, by omega, ha⟩
  rintro ⟨h1, hlt, ha⟩
  rw [hw.mem_of h1 hlt]
  exact ⟨ha, by omega⟩

theorem any_recents_iff (snap : Snapshot) (signer : Address) :
    snap.recents.toList.any (fun e ↦ e.2 = signer) = true ↔ ∃ k : ℕ, snap.recents[k]? = some signer := by
  simp only [any_eq_true, decide_eq_true_eq, Prod.exists,
    Std.ExtTreeMap.mem_toList_iff_getElem?_eq_some]
  constructor
  · rintro ⟨k, a, h, rfl⟩
    exact ⟨k, h⟩
  · rintro ⟨k, h⟩
    exact ⟨k, signer, h, rfl⟩

theorem mem_drop_iff {m : ℕ} :
    signer ∈ authors.drop (authors.length - m) ↔
    ∃ k, 1 ≤ k ∧ authors.length < k + m ∧ authors[k - 1]? = some signer := by
  rw [mem_iff_getElem?]
  constructor
  · rintro ⟨i, hi⟩
    rw [getElem?_drop] at hi
    obtain ⟨hlt, -⟩ := List.getElem?_eq_some_iff.mp hi
    refine ⟨authors.length - m + i + 1, by omega, by omega, ?_⟩
    exact hi
  rintro ⟨k, hk, hlt, ha⟩
  refine ⟨k - 1 - (authors.length - m), ?_⟩
  rw [getElem?_drop, show authors.length - m + (k - 1 - (authors.length - m)) = k - 1 by omega]
  exact ha

/-- `apply` accepts an authorised signer that signed none of the last `len/2` blocks. -/
theorem Window.acceptSigner_iff (hw : snap.Window authors) (cfg : Config) (hs : snap.isSigner signer = true) :
    (∃ snap', snap.acceptSigner cfg (authors.length + 1) signer = .ok snap') ↔
      signer ∉ authors.drop (authors.length - snap.signers.size / 2) := by
  have hfrs := hw.fresh cfg
  have hsgn : ((snap.resetVotes cfg (authors.length + 1)).dropRecent (authors.length + 1)).isSigner
      signer = true := by
    rw [isSigner, dropRecent_signers, (sameSigners_resetVotes ..).signers]
    exact hs
  have hany := any_recents_iff
    ((snap.resetVotes cfg (authors.length + 1)).dropRecent (authors.length + 1)) signer
  have hmem : signer ∈ authors.drop (authors.length - snap.signers.size / 2) ↔ ∃ k : ℕ,
      ((snap.resetVotes cfg (authors.length + 1)).dropRecent (authors.length + 1)).recents[k]? =
        some signer := by
    rw [mem_drop_iff]
    refine exists_congr fun k ↦ ?_
    rw [hfrs k signer, dropRecent_limit, (sameSigners_resetVotes ..).limit_eq, limit]
    refine and_congr_right fun _ ↦ and_congr_left fun _ ↦ ?_
    omega
  simp only [acceptSigner, hsgn, Bool.true_eq_false, if_false]
  rw [hmem, ← hany]
  constructor
  · rintro ⟨snap', hok⟩ hin
    rw [if_pos hin] at hok
    cases hok
  · intro hnot
    exact ⟨_, if_neg hnot⟩

theorem Window.exact_acceptSigner (hw : snap.Window authors)
    (h : snap.acceptSigner cfg (authors.length + 1) signer = .ok snap') :
    snap'.Exact (authors ++ [signer]) ∧ snap'.signers = snap.signers := by
  have hfrs := hw.fresh cfg
  have hlim : ((snap.resetVotes cfg (authors.length + 1)).dropRecent (authors.length + 1)).limit =
      snap.limit := by
    rw [dropRecent_limit, (sameSigners_resetVotes ..).limit_eq]
  have hsig : ((snap.resetVotes cfg (authors.length + 1)).dropRecent (authors.length + 1)).signers =
      snap.signers := by
    rw [dropRecent_signers, (sameSigners_resetVotes ..).signers]
  simp only [acceptSigner] at h
  generalize (snap.resetVotes cfg (authors.length + 1)).dropRecent (authors.length + 1) = base at *
  split_ifs at h
  cases h
  refine ⟨fun k a ↦ ?_, hsig⟩
  have hlimit : ({ base with recents := base.recents.insert (authors.length + 1) signer } :
      Snapshot).limit = snap.limit := hlim
  have hpos : 1 ≤ snap.limit := Nat.le_add_left 1 _
  rw [hlimit, length_append, length_singleton]
  simp only [GoMap.get_insert]
  by_cases hk : authors.length + 1 = k
  · subst hk
    rw [if_pos rfl, Nat.add_sub_cancel, getElem?_append_right le_rfl, Nat.sub_self]
    exact ⟨fun h ↦ ⟨by omega, by omega, h⟩, fun h ↦ h.2.2⟩
  rw [if_neg hk, hfrs k a, hlim]
  constructor
  · rintro ⟨h1, hlt, ha⟩
    obtain ⟨hl, -⟩ := List.getElem?_eq_some_iff.mp ha
    exact ⟨h1, hlt, by rw [getElem?_append_left hl]; exact ha⟩
  rintro ⟨h1, hlt, ha⟩
  obtain ⟨hl, -⟩ := List.getElem?_eq_some_iff.mp ha
  rw [length_append, length_singleton] at hl
  rw [getElem?_append_left (by omega)] at ha
  exact ⟨h1, hlt, ha⟩

theorem sameSigners_uncast (snap : Snapshot) (address : Address) (authorize : Bool) :
    SameSigners snap (snap.uncast address authorize) := by
  rw [uncast]
  split
  · exact ⟨rfl, rfl, rfl⟩
  · split_ifs <;> exact ⟨rfl, rfl, rfl⟩

theorem sameSigners_discardVote (snap : Snapshot) (signer coinbase : Address) :
    SameSigners snap (snap.discardVote signer coinbase) := by
  rw [discardVote]
  split
  · exact ⟨rfl, rfl, rfl⟩
  split
  · exact ⟨rfl, rfl, rfl⟩
  next vote _ =>
  have h := sameSigners_uncast snap vote.address vote.authorize
  exact ⟨h.signers, h.recents, h.number⟩

theorem sameSigners_cast (snap : Snapshot) (address : Address) (authorize : Bool) :
    SameSigners snap (snap.cast address authorize).2 := by
  rw [cast]
  split
  · exact ⟨rfl, rfl, rfl⟩
  · split <;> exact ⟨rfl, rfl, rfl⟩

theorem sameSigners_castVote (snap : Snapshot) (signer : Address) (number : ℕ) (coinbase : Address)
    (authorize : Bool) : SameSigners snap (snap.castVote signer number coinbase authorize) := by
  have h := sameSigners_cast snap coinbase authorize
  simp only [castVote]
  split
  · exact ⟨h.signers, h.recents, h.number⟩
  · exact h

theorem sameSigners_discardVotesOf (coinbase : Address) (votes : List Vote) (snap : Snapshot) :
    SameSigners snap (discardVotesOf coinbase votes snap).1 := by
  induction votes generalizing snap with
  | nil => exact ⟨rfl, rfl, rfl⟩
  | cons v votes ih =>
    rw [discardVotesOf]
    split
    · exact (sameSigners_uncast snap _ _).trans (ih _)
    · exact ih snap

theorem passVote_cases (snap : Snapshot) (number : ℕ) (coinbase : Address) :
    SameSigners snap (snap.passVote number coinbase) ∨
    SameSigners { snap with signers := snap.signers.insert coinbase () } (snap.passVote number coinbase) ∨
    SameSigners (dropRecent { snap with signers := snap.signers.erase coinbase } number)
      (snap.passVote number coinbase) := by
  rw [passVote]
  by_cases hpass : snap.signers.size / 2 < ((snap.tally[coinbase]?).getD ⟨false, 0⟩).votes
  · rw [if_pos hpass]
    by_cases hauth : ((snap.tally[coinbase]?).getD ⟨false, 0⟩).authorize = true
    · rw [if_pos hauth]
      exact .inr (.inl ⟨rfl, rfl, rfl⟩)
    rw [if_neg hauth]
    have h := sameSigners_discardVotesOf coinbase
      (dropRecent { snap with signers := snap.signers.erase coinbase } number).votes
      (dropRecent { snap with signers := snap.signers.erase coinbase } number)
    exact .inr (.inr ⟨h.signers, h.recents, h.number⟩)
  · rw [if_neg hpass]
    exact .inl ⟨rfl, rfl, rfl⟩

theorem SameSigners.exact (h : SameSigners s t) (hs : s.Exact authors) : t.Exact authors := by
  intro k a
  rw [h.2, h.limit_eq]
  exact hs k a

theorem SameSigners.window (h : SameSigners s t) (hs : s.Window authors) : t.Window authors := by
  refine ⟨fun {k a} hk ↦ ?_, fun {k} hk hlt ↦ ?_⟩
  · rw [h.2] at hk
    rw [h.limit_eq]
    exact hs.of_mem hk
  rw [h.limit_eq] at hlt
  rw [h.2]
  exact hs.mem_of hk hlt

theorem Exact.getElem?_eq (h : snap.Exact authors) {k : ℕ} (hk : 1 ≤ k)
    (hlt : authors.length < k + snap.limit) : snap.recents[k]? = authors[k - 1]? := by
  cases ha : authors[k - 1]? with
  | some a => exact (h k a).mpr ⟨hk, hlt, ha⟩
  | none =>
    rw [Option.eq_none_iff_forall_ne_some]
    intro a hr
    rw [((h k a).mp hr).2.2] at ha
    cases ha

theorem Exact.window_insert (h : snap.Exact authors) (coinbase : Address) :
    Window { snap with signers := snap.signers.insert coinbase () } authors := by
  have hlim : snap.limit ≤ ({ snap with signers := snap.signers.insert coinbase () } : Snapshot).limit ∧
      ({ snap with signers := snap.signers.insert coinbase () } : Snapshot).limit ≤ snap.limit + 1 := by
    simp only [limit, Std.ExtTreeMap.size_insert]
    split_ifs <;> omega
  refine ⟨fun {k a} hk ↦ ?_, fun {k} hk hlt ↦ ?_⟩
  · obtain ⟨h1, hlt, ha⟩ := (h k a).mp hk
    exact ⟨h1, by omega, ha⟩
  · exact h.getElem?_eq hk (by omega)

theorem Exact.window_erase (h : snap.Exact authors) (coinbase : Address) :
    Window (dropRecent { snap with signers := snap.signers.erase coinbase } authors.length) authors := by
  have hlim : ({ snap with signers := snap.signers.erase coinbase } : Snapshot).limit ≤ snap.limit ∧
      snap.limit ≤ ({ snap with signers := snap.signers.erase coinbase } : Snapshot).limit + 1 := by
    simp only [limit, Std.ExtTreeMap.size_erase]
    split_ifs <;> omega
  have hget := getElem?_dropRecent { snap with signers := snap.signers.erase coinbase } authors.length
  refine ⟨fun {k a} hk ↦ ?_, fun {k} hk hlt ↦ ?_⟩
  · obtain ⟨hk, hne⟩ := (hget k a).mp hk
    obtain ⟨h1, hlt, ha⟩ := (h k a).mp hk
    rw [dropRecent_limit]
    exact ⟨h1, by omega, ha⟩
  rw [dropRecent_limit] at hlt
  have heq := h.getElem?_eq hk (by omega)
  cases ha : authors[k - 1]? with
  | some a =>
    rw [ha] at heq
    exact (hget k a).mpr ⟨heq, by omega⟩
  | none =>
    rw [Option.eq_none_iff_forall_ne_some]
    intro a hr
    rw [((hget k a).mp hr).1, ha] at heq
    cases heq

theorem number_acceptSigner {number : ℕ} (h : snap.acceptSigner cfg number signer = .ok snap') :
    snap'.number = snap.number := by
  simp only [acceptSigner] at h
  split_ifs at h
  cases h
  exact (dropRecent_number _ number).trans (sameSigners_resetVotes cfg snap number).number

theorem number_passVote (snap : Snapshot) (number : ℕ) (coinbase : Address) :
    (snap.passVote number coinbase).number = snap.number := by
  obtain h | h | h := passVote_cases snap number coinbase
  · exact h.number
  · exact h.number
  · exact h.number.trans (dropRecent_number _ number)

/-- The snapshot in which the signer of a header has voted. -/
def voted (snap : Snapshot) (signer : Address) (header : Header) (authorize : Bool) : Snapshot :=
  (snap.discardVote signer header.coinbase).castVote signer header.number header.coinbase authorize

theorem sameSigners_voted (snap : Snapshot) (signer : Address) (header : Header) (authorize : Bool) :
    SameSigners snap (snap.voted signer header authorize) :=
  (sameSigners_discardVote ..).trans (sameSigners_castVote ..)

section

variable (h : snap.applyHeader cfg recover header = .ok snap')

include h

theorem applyHeader_eq_ok : ∃ signer snap1 authorize, recover header = .ok signer ∧
      snap.acceptSigner cfg header.number signer = .ok snap1 ∧ voteOf header.nonce = some authorize ∧
      snap' = (snap1.voted signer header authorize).passVote header.number header.coinbase := by
  obtain ⟨signer, hrec, h⟩ := Outcome.bind_eq_ok.mp h
  obtain ⟨snap1, hacc, h⟩ := Outcome.bind_eq_ok.mp h
  cases hv : voteOf header.nonce with
  | none =>
    rw [hv] at h
    cases h
  | some authorize =>
    rw [hv] at h
    cases h
    exact ⟨signer, snap1, authorize, hrec, hacc, rfl, rfl⟩

theorem number_applyHeader : snap'.number = snap.number := by
  obtain ⟨signer, snap1, authorize, -, hacc, -, rfl⟩ := applyHeader_eq_ok h
  rw [number_passVote, (sameSigners_voted ..).number, number_acceptSigner hacc]

end

theorem Window.applyHeader (hw : snap.Window authors) (hn : header.number = authors.length + 1)
    (h : snap.applyHeader cfg recover header = .ok snap') :
    ∃ signer, recover header = .ok signer ∧ snap'.Window (authors ++ [signer]) := by
  obtain ⟨signer, snap1, authorize, hrec, hacc, -, rfl⟩ := applyHeader_eq_ok h
  rw [hn] at hacc
  have hexact := (sameSigners_voted _ signer header authorize).exact (hw.exact_acceptSigner hacc).1
  have hlen : header.number = (authors ++ [signer]).length := by
    rw [hn, length_append, length_singleton]
  refine ⟨signer, hrec, ?_⟩
  obtain hp | hp | hp := passVote_cases (snap1.voted signer header authorize) header.number header.coinbase
  · exact hp.window ⟨fun hk ↦ (hexact _ _).mp hk, fun hk hlt ↦ hexact.getElem?_eq hk (by omega)⟩
  · exact hp.window (hexact.window_insert header.coinbase)
  rw [hlen] at hp ⊢
  exact hp.window (hexact.window_erase header.coinbase)

end Snapshot

end BjutEth.Clique
