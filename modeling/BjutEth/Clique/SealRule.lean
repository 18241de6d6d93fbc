import BjutEth.Clique.Recents

namespace BjutEth.Clique

open List hiding not_lt
open Bool
open Outcome

namespace Snapshot

variable {cfg : Config} {hash : Header → Hash} {recover : Header → Go Address} {snap : Snapshot}
  {authors : List Address}

variable {headers : List Header}

theorem Window.foldlM (hw : snap.Window authors) (hc : contiguous authors.length headers = true)
    (hlen : authors.length + headers.length < 2 ^ 64) {snap' : Snapshot}
    (h : headers.foldlM (Snapshot.applyHeader cfg recover) snap = .ok snap') :
    ∃ signers, headers.mapM recover = .ok signers ∧ snap'.Window (authors ++ signers) := by
  induction headers generalizing snap authors with
  | nil =>
    cases h
    exact ⟨[], rfl, by rw [append_nil]; exact hw⟩
  | cons header headers ih =>
    rw [contiguous, and_eq_true, decide_eq_true_eq] at hc
    obtain ⟨hnum, hc⟩ := hc
    rw [length_cons] at hlen
    rw [succUint64, Nat.mod_eq_of_lt (by omega)] at hnum
    obtain ⟨snap1, hstep, h⟩ := bind_eq_ok.mp h
    obtain ⟨signer, hrec, hw1⟩ := hw.applyHeader hnum hstep
    have hlen1 : (authors ++ [signer]).length = header.number := by
      rw [length_append, length_singleton, hnum]
    rw [← hlen1] at hc
    obtain ⟨signers, hmap, hw'⟩ := ih hw1 hc (by omega) h
    refine ⟨signer :: signers, ?_, ?_⟩
    · rw [mapM_cons, hrec, hmap]
      rfl
    · rw [List.append_assoc, singleton_append] at hw'
      exact hw'

theorem length_of_mapM (h : headers.mapM recover = .ok authors) : authors.length = headers.length := by
  induction headers generalizing authors with
  | nil =>
    cases h
    rfl
  | cons header headers ih =>
    rw [mapM_cons] at h
    obtain ⟨a, -, h⟩ := bind_eq_ok.mp h
    obtain ⟨as, has, h⟩ := bind_eq_ok.mp h
    cases h
    rw [length_cons, length_cons, ih has]

theorem window_apply {genesisHash : Hash} {signers : List Address}
    (h : (newSnapshot 0 genesisHash signers).apply cfg hash recover headers = .ok snap)
    (hauth : headers.mapM recover = .ok authors) (hlen : headers.length < 2 ^ 64) :
    authors.length = headers.length ∧ snap.number = headers.length ∧ snap.Window authors := by
  cases hlast : headers.getLast? with
  | none =>
    obtain rfl := getLast?_eq_none_iff.mp hlast
    cases hauth
    cases h
    exact ⟨rfl, rfl, window_new 0 genesisHash signers⟩
  | some last =>
    simp only [Snapshot.apply, hlast] at h
    split_ifs at h with hc
    rw [not_eq_false] at hc
    obtain ⟨snap1, hfold, h⟩ := bind_eq_ok.mp h
    cases h
    have hlen' : ([] : List Address).length + headers.length < 2 ^ 64 := by
      rw [length_nil, Nat.zero_add]
      exact hlen
    obtain ⟨signers', hmap, hw⟩ := (window_new 0 genesisHash signers).foldlM hc hlen' hfold
    rw [hauth] at hmap
    cases hmap
    have hnum := foldlM_keeps (Snapshot.applyHeader cfg recover) Snapshot.number
      (fun _ _ _ h ↦ number_applyHeader h) headers hfold
    refine ⟨?_, ?_, ?_⟩
    · exact length_of_mapM hauth
    · rw [hnum, show (newSnapshot 0 genesisHash signers).number = 0 from rfl, Nat.zero_add,
        Nat.mod_eq_of_lt hlen]
    · exact ⟨hw.of_mem, hw.mem_of⟩

theorem sealRecents_iff (snap : Snapshot) (number : ℕ) (signer : Address) :
    snap.sealRecents number signer = true ↔
      ∀ k : ℕ, snap.recents[k]? = some signer → k ≤ subUint64 number snap.limit := by
  simp only [sealRecents, all_eq_true, Prod.forall, Std.ExtTreeMap.mem_toList_iff_getElem?_eq_some,
    not_eq_true', and_eq_false_iff, decide_eq_false_iff_not, not_lt]
  constructor
  · intro h k hk
    exact (h k signer hk).resolve_left (not_not.mpr rfl)
  intro h k a hk
  by_cases ha : a = signer
  · subst ha
    exact .inr (h k hk)
  · exact .inl ha

theorem Window.sealRecents_iff (hw : snap.Window authors) (hn : authors.length + 1 < 2 ^ 64)
    (hsize : snap.signers.size < 2 ^ 63) (signer : Address) :
    snap.sealRecents (authors.length + 1) signer = true ↔
      (snap.limit ≤ authors.length + 1 →
        signer ∉ authors.drop (authors.length - snap.signers.size / 2)) := by
  have hlim : snap.limit = snap.signers.size / 2 + 1 := rfl
  rw [Snapshot.sealRecents_iff, mem_drop_iff]
  by_cases hle : snap.limit ≤ authors.length + 1
  · have hsub : subUint64 (authors.length + 1) snap.limit = authors.length + 1 - snap.limit := by
      rw [subUint64]
      omega
    constructor
    · rintro h - ⟨k, hk, hlt, ha⟩
      have hr := hw.mem_of hk (by omega)
      rw [ha] at hr
      have := h k hr
      omega
    intro h k hk
    obtain ⟨h1, -, ha⟩ := hw.of_mem hk
    by_contra hgt
    exact h hle ⟨k, h1, by omega, ha⟩
  have hsub : authors.length + 1 ≤ subUint64 (authors.length + 1) snap.limit := by
    rw [subUint64]
    omega
  refine ⟨fun _ h ↦ absurd h hle, fun _ k hk ↦ ?_⟩
  obtain ⟨h1, -, ha⟩ := hw.of_mem hk
  obtain ⟨hlt, -⟩ := List.getElem?_eq_some_iff.mp ha
  omega

end Snapshot

namespace Engine

variable {c : Engine}

open Snapshot

variable {header : Header}

theorem voteOf_of_verifyFields {now : ℕ} (h : c.verifyFields now header = .ok ()) :
    ∃ authorize, voteOf header.nonce = some authorize := by
  by_cases hauth : header.nonce = nonceAuthVote
  · exact ⟨true, if_pos hauth⟩
  by_cases hdrop : header.nonce = nonceDropVote
  · exact ⟨false, (if_neg hauth).trans (if_pos hdrop)⟩
  have hne : header.nonce ≠ nonceAuthVote ∧ header.nonce ≠ nonceDropVote := ⟨hauth, hdrop⟩
  simp only [verifyFields, if_pos hne] at h
  split_ifs at h

theorem sealRecents_of_verifyHeader {now : ℕ} {chain : ChainReader} {parents : List Header}
    {snap : Snapshot} {signer : Address} (hpos : header.number ≠ 0)
    (hsnap : c.snapshot now chain (header.number - 1) header.parentHash parents = .ok snap)
    (hrec : c.crypto.recover header = .ok signer) (h : c.verifyHeader now chain header parents = .ok ()) :
    snap.sealRecents header.number signer = true := by
  obtain ⟨-, h⟩ := unit_bind_eq_ok.mp h
  rw [verifyCascadingFields, if_neg hpos] at h
  simp only at h
  split at h
  · cases h
  split_ifs at h
  obtain ⟨snap', hsnap', h⟩ := bind_eq_ok.mp h
  split_ifs at h
  rw [verifySeal, if_neg hpos] at h
  obtain ⟨snap', hsnap', h⟩ := bind_eq_ok.mp h
  rw [hsnap] at hsnap'
  cases hsnap'
  obtain ⟨signer', hrec', h⟩ := bind_eq_ok.mp h
  rw [hrec] at hrec'
  cases hrec'
  split_ifs at h with hs hr
  rw [not_eq_false] at hr
  exact hr

theorem apply_single_iff {cfg : Config} {hash : Header → Hash} {recover : Header → Go Address}
    {snap : Snapshot} {signer : Address} {authorize : Bool} (hn : header.number = succUint64 snap.number)
    (hrec : recover header = .ok signer) (hv : voteOf header.nonce = some authorize) :
    (∃ snap', snap.apply cfg hash recover [header] = .ok snap') ↔
      ∃ snap', snap.acceptSigner cfg header.number signer = .ok snap' := by
  have hc : ¬ contiguous snap.number [header] = false := by
    rw [contiguous, contiguous, Bool.and_true, decide_eq_false_iff_not]
    exact not_not.mpr hn
  constructor
  · rintro ⟨snap', h⟩
    simp only [Snapshot.apply, getLast?_singleton, if_neg hc] at h
    obtain ⟨s, hs, -⟩ := bind_eq_ok.mp h
    obtain ⟨s1, hs1, -⟩ := bind_eq_ok.mp hs
    obtain ⟨signer', s2, -, hrec', hacc, -⟩ := applyHeader_eq_ok hs1
    rw [hrec] at hrec'
    cases hrec'
    exact ⟨s2, hacc⟩
  rintro ⟨s, hs⟩
  have hstep : snap.applyHeader cfg recover header = .ok
      (((s.discardVote signer header.coinbase).castVote signer header.number header.coinbase
        authorize).passVote header.number header.coinbase) := by
    refine bind_eq_ok.mpr ⟨signer, hrec, bind_eq_ok.mpr ⟨s, hs, ?_⟩⟩
    rw [hv]
    rfl
  simp only [Snapshot.apply, getLast?_singleton, if_neg hc]
  exact ⟨_, bind_eq_ok.mpr ⟨_, foldlM_single hstep, rfl⟩⟩

/-- After any accepted headers, `verifySeal` and `apply` agree on the next signer exactly if the
number is not below the length of the window or the signer has signed no block: before that the
subtraction in `verifySeal` wraps around. -/
theorem recents_rule_iff {genesisHash : Hash} {signers : List Address} {headers : List Header}
    {snap : Snapshot} {authors : List Address}
    (happ : (newSnapshot 0 genesisHash signers).apply c.config c.crypto.hash c.crypto.recover headers =
      .ok snap)
    (hauth : headers.mapM c.crypto.recover = .ok authors) (hlen : headers.length + 1 < 2 ^ 64)
    (hsize : snap.signers.size < 2 ^ 63) {header : Header} (hn : header.number = headers.length + 1)
    {signer : Address} (hrec : c.crypto.recover header = .ok signer) (hs : snap.isSigner signer = true) :
    (((snap.sealRecents header.number signer = true ↔
          ∃ snap', snap.acceptSigner c.config header.number signer = .ok snap') ∧
        ((∃ snap', snap.acceptSigner c.config header.number signer = .ok snap') ↔
          signer ∉ authors.drop (authors.length - snap.signers.size / 2))) ↔
      (snap.limit ≤ header.number ∨ signer ∉ authors)) ∧
    ∀ now chain parents, c.snapshot now chain headers.length header.parentHash parents = .ok snap →
      c.verifyHeader now chain header parents = .ok () →
      ((∃ snap', snap.apply c.config c.crypto.hash c.crypto.recover [header] = .ok snap') ↔
        (snap.limit ≤ header.number ∨ signer ∉ authors)) := by
  obtain ⟨hauthors, hnumber, hw⟩ := window_apply happ hauth (by omega)
  have hna : header.number = authors.length + 1 := by rw [hn, hauthors]
  have hseal := hw.sealRecents_iff (by omega) hsize signer
  have hacc := hw.acceptSigner_iff c.config hs
  -- below the length of the window, the last blocks are all blocks
  have hall : ¬ snap.limit ≤ authors.length + 1 →
      authors.drop (authors.length - snap.signers.size / 2) = authors := by
    intro hlt
    have hlim : snap.limit = snap.signers.size / 2 + 1 := rfl
    rw [show authors.length - snap.signers.size / 2 = 0 by omega, drop_zero]
  refine ⟨?_, ?_⟩
  · rw [hna, hacc, hseal, and_iff_left Iff.rfl]
    by_cases hle : snap.limit ≤ authors.length + 1
    · exact ⟨fun _ ↦ .inl hle, fun _ ↦ ⟨fun h ↦ h hle, fun h _ ↦ h⟩⟩
    rw [hall hle]
    refine ⟨fun h ↦ .inr (h.mp (fun h ↦ absurd h hle)), fun h ↦ ⟨fun _ ↦ h.resolve_left hle, ?_⟩⟩
    exact fun _ h ↦ absurd h hle
  intro now chain parents hsnap hverify
  have hpos : header.number ≠ 0 := by omega
  have hprev : header.number - 1 = headers.length := by omega
  have hpass := sealRecents_of_verifyHeader hpos (by rw [hprev]; exact hsnap) hrec hverify
  obtain ⟨hfld, -⟩ := unit_bind_eq_ok.mp hverify
  obtain ⟨authorize, hv⟩ := voteOf_of_verifyFields hfld
  have hsucc : header.number = succUint64 snap.number := by
    rw [hnumber, succUint64, Nat.mod_eq_of_lt hlen, hn]
  rw [apply_single_iff hsucc hrec hv, hna, hacc]
  rw [hna, hseal] at hpass
  by_cases hle : snap.limit ≤ authors.length + 1
  · exact ⟨fun _ ↦ .inl hle, fun _ ↦ hpass hle⟩
  rw [hall hle]
  exact ⟨fun h ↦ .inr h, fun h ↦ h.resolve_left hle⟩

/-- After any accepted headers, `apply` takes the next one from exactly the signers of none of the
last `len/2` blocks. These are at least half of all: the rule never stops the chain. -/
theorem half_may_sign {cfg : Config} {hash : Header → Hash} {recover : Header → Go Address}
    {genesisHash : Hash} {signers authors : List Address} {headers : List Header} {snap : Snapshot}
    (happ : (newSnapshot 0 genesisHash signers).apply cfg hash recover headers = .ok snap)
    (hauth : headers.mapM recover = .ok authors) (hlen : headers.length + 1 < 2 ^ 64) :
    let recent := authors.drop (authors.length - snap.signers.size / 2)
    let free := snap.sortedSigners.filter (· ∉ recent)
    snap.signers.size ≤ 2 * free.length ∧ ∀ header a authorize, header.number = headers.length + 1 →
      recover header = .ok a → voteOf header.nonce = some authorize →
      ((∃ snap', snap.apply cfg hash recover [header] = .ok snap') ↔ a ∈ free) := by
  obtain ⟨hauthors, hnumber, hw⟩ := window_apply happ hauth (by omega)
  intro recent free
  refine ⟨?_, fun header a authorize hn hrec hv ↦ ?_⟩
  · -- the signers in the window are distinct, and no more than its blocks
    have hnodup : (snap.sortedSigners.filter (· ∈ recent)).Nodup := Std.ExtTreeMap.nodup_keys.filter _
    have hle := (hnodup.subperm fun a ha ↦ of_decide_eq_true (mem_filter.mp ha).2).length_le
    have hall := snap.sortedSigners.length_eq_length_filter_add (· ∈ recent)
    have hsize : snap.sortedSigners.length = snap.signers.size := Std.ExtTreeMap.length_keys
    rw [length_drop] at hle
    simp only [free, decide_not]
    omega
  have hsucc : header.number = succUint64 snap.number := by
    rw [hnumber, succUint64, Nat.mod_eq_of_lt hlen, hn]
  have hmem : a ∈ snap.sortedSigners ↔ snap.isSigner a = true := by simp [sortedSigners, isSigner]
  rw [apply_single_iff hsucc hrec hv, mem_filter, decide_eq_true_eq, hmem, hn, ← hauthors]
  by_cases hs : snap.isSigner a = true
  · rw [hw.acceptSigner_iff cfg hs, and_iff_right hs]
  have hno : (snap.signers[a]?).isSome = false := eq_false_of_ne_true hs
  simp [acceptSigner, isSigner, dropRecent_signers, (sameSigners_resetVotes ..).signers, hno]

def plainCrypto : Crypto where
  hash hd := .ofNat 256 (hd.number * 16 + hd.time + 1)
  hashFields hd := .ofNat 256 hd.number
  ecrecover _ sig := some (.ofNat 160 (beValue sig))
  uncleHash := 0

def plainEngine : Engine where
  config := .new 1 0
  crypto := plainCrypto
  cached _ := none
  onDisk _ := none
  proposals := ∅
  signer := 1
  signFn _ := some (fixedBytes 65 1)

def fourSigners : List Address := [1, 2, 3, 4]

def plainGenesis : Header where
  parentHash := 0
  uncleHash := 0
  coinbase := 0
  difficulty := 1
  number := 0
  time := 0
  extra := List.replicate 32 0 ++ signersBytes fourSigners ++ List.replicate 65 0
  mixDigest := 0
  nonce := 0
  rest := []

def sealedChild (parent : Header) (signer : ℕ) (difficulty : ℤ) : Header where
  parentHash := plainCrypto.hash parent
  uncleHash := 0
  coinbase := 0
  difficulty := difficulty
  number := parent.number + 1
  time := parent.time + 1
  extra := List.replicate 32 0 ++ fixedBytes 65 signer
  mixDigest := 0
  nonce := 0
  rest := []

def first : Header := sealedChild plainGenesis 1 1
def second : Header := sealedChild first 1 1

def plainReader : ChainReader where
  getHeader h n := [plainGenesis, first].find? fun hd ↦ plainCrypto.hash hd = h ∧ hd.number = n
  genesis := plainGenesis

def afterFirst : Go Snapshot :=
  (newSnapshot 0 (plainCrypto.hash plainGenesis) fourSigners).apply plainEngine.config plainCrypto.hash
    plainCrypto.recover [first]

theorem recents_rule_other : ∃ snap, afterFirst = .ok snap ∧ snap.limit = 3 ∧
    (snap.sealRecents 2 2 = true ↔ ∃ snap', snap.acceptSigner plainEngine.config 2 2 = .ok snap') := by
  refine exists_ok_imp (P := fun s ↦ s.signers.size = 4 ∧ s.isSigner 2 = true)
    (by decide +kernel) (fun snap hsnap hfacts ↦ ?_)
  have hrule := @recents_rule_iff plainEngine _ fourSigners [first] snap [1] hsnap (by decide +kernel)
    (by decide) (by omega) (sealedChild first 2 1) rfl 2 (by decide +kernel) hfacts.2
  refine ⟨?_, (hrule.1.mpr (.inr (by decide))).1⟩
  rw [limit, hfacts.1]

theorem second_may_sign : ∃ snap, afterFirst = .ok snap ∧ ∃ snap',
    snap.apply plainEngine.config plainCrypto.hash plainCrypto.recover [sealedChild first 2 1] =
      .ok snap' := by
  refine exists_ok_imp (P := fun s ↦ 2 ∈ s.sortedSigners.filter
    (· ∉ [(1 : Address)].drop (1 - s.signers.size / 2))) (by decide +kernel) fun snap hsnap hfree ↦ ?_
  exact ((@half_may_sign _ _ _ _ _ [1] [first] snap hsnap (by decide +kernel) (by decide)).2 _ 2 false rfl
    (by decide +kernel) rfl).mpr hfree

/-- With four signers, the signer of block 1 may not sign block 2: `apply` refuses it, but
`verifyHeader` accepts it. -/
theorem verifyHeader_second : ∃ snap, afterFirst = .ok snap ∧
    plainEngine.crypto.recover second = .ok 1 ∧ snap.isSigner 1 = true ∧
    snap.sealRecents 2 1 = true ∧ plainEngine.verifyHeader 10 plainReader second [] = .ok () ∧
    (snap.acceptSigner plainEngine.config 2 1).map (fun _ ↦ ()) = .error (.err .unauthorized) ∧
    (snap.apply plainEngine.config plainCrypto.hash plainCrypto.recover [second]).map (fun _ ↦ ()) =
      .error (.err .unauthorized) := by
  decide +kernel

end Engine

end BjutEth.Clique
