import BjutEth.Clique.SealRule

namespace BjutEth.Clique

open Outcome List

variable {headers : List Header}

namespace Snapshot

def relabel (number : ℕ) (hash : Hash) (snap : Snapshot) : Snapshot := { snap with number, hash }

variable {cfg : Config} {recover : Header → Go Address} (number : ℕ) (hash : Hash) (snap : Snapshot)

section Relabel

theorem uncast_relabel (address : Address) (authorize : Bool) :
    (snap.relabel number hash).uncast address authorize =
      (snap.uncast address authorize).relabel number hash := by
  have htal : (snap.relabel number hash).tally = snap.tally := rfl
  rw [uncast, uncast, htal]
  cases snap.tally[address]? with
  | none => rfl
  | some tally =>
    simp only
    split_ifs <;> rfl

theorem discardVote_relabel (signer coinbase : Address) :
    (snap.relabel number hash).discardVote signer coinbase =
      (snap.discardVote signer coinbase).relabel number hash := by
  have hvs : (snap.relabel number hash).votes = snap.votes := rfl
  rw [discardVote, discardVote, hvs]
  cases snap.votes.findIdx? fun v ↦ v.signer = signer ∧ v.address = coinbase with
  | none => rfl
  | some i =>
    simp only
    cases snap.votes[i]? with
    | none => rfl
    | some vote =>
      simp only [uncast_relabel]
      rfl

theorem cast_relabel (address : Address) (authorize : Bool) :
    (snap.relabel number hash).cast address authorize =
      ((snap.cast address authorize).1, (snap.cast address authorize).2.relabel number hash) := by
  have htal : (snap.relabel number hash).tally = snap.tally := rfl
  have hvalid : (snap.relabel number hash).validVote address authorize =
    snap.validVote address authorize := rfl
  rw [cast, cast, htal, hvalid]
  split_ifs
  · rfl
  · cases snap.tally[address]? <;> rfl

theorem castVote_relabel (signer : Address) (n : ℕ) (coinbase : Address) (authorize : Bool) :
    (snap.relabel number hash).castVote signer n coinbase authorize =
      (snap.castVote signer n coinbase authorize).relabel number hash := by
  simp only [castVote, cast_relabel]
  split_ifs <;> rfl

theorem discardVotesOf_relabel (coinbase : Address) (votes : List Vote) :
    discardVotesOf coinbase votes (snap.relabel number hash) =
      ((discardVotesOf coinbase votes snap).1.relabel number hash,
        (discardVotesOf coinbase votes snap).2) := by
  induction votes generalizing snap with
  | nil => rfl
  | cons v votes ih =>
    rw [discardVotesOf, discardVotesOf]
    split_ifs
    · rw [uncast_relabel, ih]
    · simp only [ih]

theorem dropRecent_relabel (n : ℕ) :
    (snap.relabel number hash).dropRecent n = (snap.dropRecent n).relabel number hash := by
  have hlim : (snap.relabel number hash).limit = snap.limit := rfl
  rw [dropRecent, dropRecent, hlim]
  split_ifs <;> rfl

theorem removeSigner_relabel (n : ℕ) (coinbase : Address) :
    (snap.relabel number hash).removeSigner n coinbase =
      (snap.removeSigner n coinbase).relabel number hash := by
  have hdrop := dropRecent_relabel number hash { snap with signers := snap.signers.erase coinbase } n
  have hbase : ({ snap.relabel number hash with signers := snap.signers.erase coinbase } : Snapshot) =
    relabel number hash { snap with signers := snap.signers.erase coinbase } := rfl
  have hsgs : (snap.relabel number hash).signers = snap.signers := rfl
  rw [removeSigner, hsgs, hbase, hdrop, discardVotesOf_relabel]
  rfl

theorem passVote_relabel (n : ℕ) (coinbase : Address) :
    (snap.relabel number hash).passVote n coinbase = (snap.passVote n coinbase).relabel number hash := by
  have htal : (snap.relabel number hash).tally = snap.tally := rfl
  have hsgs : (snap.relabel number hash).signers = snap.signers := rfl
  rw [passVote, passVote, htal, hsgs, removeSigner_relabel]
  split_ifs <;> rfl

theorem acceptSigner_relabel (n : ℕ) (signer : Address) :
    (snap.relabel number hash).acceptSigner cfg n signer =
      (snap.acceptSigner cfg n signer).map (relabel number hash) := by
  have hres : (snap.relabel number hash).resetVotes cfg n =
      (snap.resetVotes cfg n).relabel number hash := by
    rw [resetVotes, resetVotes]
    split_ifs <;> rfl
  simp only [acceptSigner, hres, dropRecent_relabel]
  generalize (snap.resetVotes cfg n).dropRecent n = base
  have hsgn : (base.relabel number hash).isSigner signer = base.isSigner signer := rfl
  have hrecents : (base.relabel number hash).recents = base.recents := rfl
  rw [hsgn, hrecents]
  split_ifs <;> rfl

theorem applyHeader_relabel (header : Header) :
    (snap.relabel number hash).applyHeader cfg recover header =
      (snap.applyHeader cfg recover header).map (relabel number hash) := by
  rw [applyHeader, applyHeader]
  cases recover header with
  | error e => rfl
  | ok signer =>
    change ((snap.relabel number hash).acceptSigner cfg header.number signer >>= _) =
      (snap.acceptSigner cfg header.number signer >>= _).map _
    rw [acceptSigner_relabel, bind_map, Outcome.map_bind]
    congr 1
    funext s
    simp only [discardVote_relabel]
    cases voteOf header.nonce with
    | none => rfl
    | some authorize =>
      simp only [castVote_relabel, passVote_relabel]
      rfl

end Relabel

section Compose

variable {hashOf : Header → Hash} {s t : Snapshot}

theorem apply_eq_ok_iff {last : Header} (hlast : headers.getLast? = some last) :
    s.apply cfg hashOf recover headers = .ok t ↔ contiguous s.number headers = true ∧
      ∃ u, headers.foldlM (applyHeader cfg recover) s = .ok u ∧
        t = u.relabel ((u.number + headers.length) % 2 ^ 64) (hashOf last) := by
  simp only [Snapshot.apply, hlast]
  split_ifs with hc
  · refine ⟨by simp, ?_⟩
    rintro ⟨h, -⟩
    rw [hc] at h
    cases h
  rw [bind_eq_ok]
  rw [Bool.not_eq_false] at hc
  constructor
  · rintro ⟨u, hu, h⟩
    exact ⟨hc, u, hu, (Except.ok.inj h).symm⟩
  · rintro ⟨-, u, hu, rfl⟩
    exact ⟨u, hu, rfl⟩

theorem number_foldlM (h : headers.foldlM (applyHeader cfg recover) s = .ok t) : t.number = s.number :=
  foldlM_keeps (applyHeader cfg recover) Snapshot.number (fun _ _ _ h ↦ number_applyHeader h)
    headers h

theorem apply_single_eq_ok {header : Header} : s.apply cfg hashOf recover [header] = .ok t ↔
    header.number = succUint64 s.number ∧ ∃ u, s.applyHeader cfg recover header = .ok u ∧
      t = u.relabel header.number (hashOf header) := by
  have hsgl : [header].getLast? = some header := rfl
  rw [apply_eq_ok_iff hsgl, contiguous, contiguous, Bool.and_true, decide_eq_true_eq]
  refine and_congr_right fun hn ↦ exists_congr fun u ↦ ?_
  rw [foldlM_cons, bind_eq_ok]
  constructor
  · rintro ⟨⟨v, hv, h⟩, rfl⟩
    cases h
    refine ⟨hv, ?_⟩
    rw [number_applyHeader hv, hn]
    rfl
  rintro ⟨hu, rfl⟩
  refine ⟨⟨u, hu, rfl⟩, ?_⟩
  rw [number_applyHeader hu, hn]
  rfl

theorem apply_cons_iff (header : Header) (headers : List Header) :
    s.apply cfg hashOf recover (header :: headers) = .ok t ↔
      ∃ u, s.apply cfg hashOf recover [header] = .ok u ∧ u.apply cfg hashOf recover headers = .ok t := by
  cases hlast : headers.getLast? with
  | none =>
    obtain rfl := getLast?_eq_none_iff.mp hlast
    refine ⟨fun h ↦ ⟨t, h, rfl⟩, ?_⟩
    rintro ⟨u, hu, h⟩
    cases h
    exact hu
  | some last =>
    have hlast' : (header :: headers).getLast? = some last := by
      rw [getLast?_cons, hlast]
      rfl
    have hcomm := foldlM_comm (fun s a ↦ @applyHeader_relabel cfg recover header.number
      (hashOf header) s a) headers
    have hnum : ∀ {u v : Snapshot}, header.number = succUint64 s.number →
        s.applyHeader cfg recover header = .ok v →
        headers.foldlM (applyHeader cfg recover) v = .ok u →
        (u.number + (header :: headers).length) % 2 ^ 64 = (header.number + headers.length) % 2 ^ 64 := by
      intro u v hn hv hu
      rw [number_foldlM hu, number_applyHeader hv, hn, succUint64, length_cons]
      omega
    rw [apply_eq_ok_iff hlast', contiguous, Bool.and_eq_true, decide_eq_true_eq]
    constructor
    · rintro ⟨⟨hn, hc⟩, u, hfold, rfl⟩
      obtain ⟨v, hv, hu⟩ := bind_eq_ok.mp hfold
      refine ⟨_, apply_single_eq_ok.mpr ⟨hn, v, hv, rfl⟩, ?_⟩
      refine (apply_eq_ok_iff hlast).mpr ⟨hc, u.relabel header.number (hashOf header), ?_, ?_⟩
      · rw [hcomm, hu]
        rfl
      · rw [hnum hn hv hu]
        rfl
    rintro ⟨w, hw, h⟩
    obtain ⟨hn, v, hv, rfl⟩ := apply_single_eq_ok.mp hw
    obtain ⟨hc, u', hfold, rfl⟩ := (apply_eq_ok_iff hlast).mp h
    rw [hcomm] at hfold
    obtain ⟨u, hu, rfl⟩ := map_eq_ok.mp hfold
    refine ⟨⟨hn, hc⟩, u, ?_, ?_⟩
    · rw [foldlM_cons, hv]
      exact hu
    · rw [hnum hn hv hu]
      rfl

end Compose

end Snapshot

/-- A reader of one chain: headers are found under their hash and number, and each above the
genesis block has its parent. -/
structure ChainReader.Ok (C : Crypto) (chain : ChainReader) : Prop where
  keyed : ∀ {h n hd}, chain.getHeader h n = some hd → C.hash hd = h ∧ hd.number = n
  parent : ∀ {h n hd}, chain.getHeader h (n + 1) = some hd →
    ∃ p, chain.getHeader hd.parentHash n = some p

def ChainReader.snapshotAt (cfg : Config) (C : Crypto) (chain : ChainReader) : ℕ → Hash → Go Snapshot
  | 0, _ => .ok (newSnapshot 0 (C.hash chain.genesis) (genesisSigners chain.genesis.extra))
  | number + 1, hash =>
    match chain.getHeader hash (number + 1) with
    | none => .error (.err .unknownAncestor)
    | some header => do
      let snap ← snapshotAt cfg C chain number header.parentHash
      snap.apply cfg C.hash C.recover [header]

namespace Engine

def CacheOk (c : Engine) (chain : ChainReader) : Prop :=
  ∀ {h n hd s}, chain.getHeader h n = some hd → c.known n h = some s →
    chain.snapshotAt c.config c.crypto n h = .ok s

variable {c : Engine} {chain : ChainReader}

variable {n now : ℕ} {h : Hash} {hd : Header}

theorem snapshotAt_succ {cfg : Config} {C : Crypto} (hhd : chain.getHeader h (n + 1) = some hd) :
    chain.snapshotAt cfg C (n + 1) h =
      chain.snapshotAt cfg C n hd.parentHash >>= fun snap ↦ snap.apply cfg C.hash C.recover [hd] := by
  rw [ChainReader.snapshotAt, hhd]

section

variable (hok : chain.Ok c.crypto)

include hok

section

variable (hcch : c.CacheOk chain)

include hcch

theorem gather_sound (hhd : chain.getHeader h n = some hd) {acc : List Header} {s t : Snapshot}
    (hg : c.gather now chain n h [] acc = .ok (s, headers))
    (ht : s.apply c.config c.crypto.hash c.crypto.recover headers = .ok t) :
    ∃ u, chain.snapshotAt c.config c.crypto n h = .ok u ∧
      u.apply c.config c.crypto.hash c.crypto.recover acc = .ok t := by
  induction n generalizing h hd acc with
  | zero =>
    rw [gather] at hg
    cases hk : c.known 0 h with
    | some s' =>
      rw [hk] at hg
      cases hg
      exact ⟨s, hcch hhd hk, ht⟩
    | none =>
      rw [hk] at hg
      obtain ⟨g, hgen, hg⟩ := bind_eq_ok.mp hg
      cases hg
      obtain ⟨-, hgen⟩ := unit_bind_eq_ok.mp hgen
      cases hgen
      exact ⟨_, rfl, ht⟩
  | succ n ih =>
    rw [gather] at hg
    cases hk : c.known (n + 1) h with
    | some s' =>
      rw [hk] at hg
      cases hg
      exact ⟨s, hcch hhd hk, ht⟩
    | none =>
      simp only [hk, hhd] at hg
      obtain ⟨p, hp⟩ := hok.parent hhd
      obtain ⟨u, hu, hut⟩ := ih hp hg
      obtain ⟨v, hv, hvt⟩ := (Snapshot.apply_cons_iff hd acc).mp hut
      refine ⟨v, ?_, hvt⟩
      rw [snapshotAt_succ hhd, hu]
      exact hv

theorem gather_complete
    (hgen : c.verifyFields now chain.genesis = .ok ()) (hhd : chain.getHeader h n = some hd)
    {acc : List Header} {u t : Snapshot} (hu : chain.snapshotAt c.config c.crypto n h = .ok u)
    (ht : u.apply c.config c.crypto.hash c.crypto.recover acc = .ok t) :
    ∃ s headers, c.gather now chain n h [] acc = .ok (s, headers) ∧
      s.apply c.config c.crypto.hash c.crypto.recover headers = .ok t := by
  induction n generalizing h hd acc u with
  | zero =>
    rw [gather]
    cases hk : c.known 0 h with
    | some s =>
      have hs := hcch hhd hk
      rw [hu] at hs
      cases hs
      exact ⟨u, acc, rfl, ht⟩
    | none =>
      cases hu
      refine ⟨_, acc, ?_, ht⟩
      simp only [genesisSnapshot, hgen]
      rfl
  | succ n ih =>
    rw [gather]
    cases hk : c.known (n + 1) h with
    | some s =>
      have hs := hcch hhd hk
      rw [hu] at hs
      cases hs
      exact ⟨u, acc, rfl, ht⟩
    | none =>
      simp only [hhd]
      obtain ⟨p, hp⟩ := hok.parent hhd
      rw [snapshotAt_succ hhd] at hu
      obtain ⟨v, hv, hvu⟩ := bind_eq_ok.mp hu
      exact ih hp hv ((Snapshot.apply_cons_iff hd acc).mpr ⟨u, hvu, ht⟩)

theorem snapshot_sound {hash : Hash}
    (hhd : chain.getHeader hash n = some hd) {t : Snapshot} (h : c.snapshot now chain n hash [] = .ok t) :
    chain.snapshotAt c.config c.crypto n hash = .ok t := by
  obtain ⟨⟨s, headers⟩, hg, ht⟩ := bind_eq_ok.mp h
  obtain ⟨u, hu, hut⟩ := gather_sound hok hcch hhd hg ht
  cases hut
  exact hu

theorem snapshot_complete {hash : Hash}
    (hgen : c.verifyFields now chain.genesis = .ok ()) (hhd : chain.getHeader hash n = some hd)
    {t : Snapshot} (h : chain.snapshotAt c.config c.crypto n hash = .ok t) :
    c.snapshot now chain n hash [] = .ok t := by
  have hnil : t.apply c.config c.crypto.hash c.crypto.recover [] = .ok t := rfl
  obtain ⟨s, headers, hg, ht⟩ := gather_complete hok hcch hgen hhd h hnil
  exact bind_eq_ok.mpr ⟨(s, headers), hg, ht⟩

end

theorem number_snapshotAt {hash : Hash} (hhd : chain.getHeader hash n = some hd)
    {t : Snapshot} (h : chain.snapshotAt c.config c.crypto n hash = .ok t) : t.number = n := by
  cases n with
  | zero =>
    cases h
    rfl
  | succ n =>
    rw [snapshotAt_succ hhd] at h
    obtain ⟨s, -, h⟩ := bind_eq_ok.mp h
    obtain ⟨-, u, -, rfl⟩ := Snapshot.apply_single_eq_ok.mp h
    exact (hok.keyed hhd).2

variable (hgen : ∀ {h hd}, chain.getHeader h 0 = some hd → hd = chain.genesis)

include hgen

theorem hash_snapshotAt (hhd : chain.getHeader h n = some hd)
    {t : Snapshot} (ht : chain.snapshotAt c.config c.crypto n h = .ok t) : t.hash = h := by
  cases n with
  | zero =>
    cases ht
    rw [← (hok.keyed hhd).1, hgen hhd]
    rfl
  | succ n =>
    rw [snapshotAt_succ hhd] at ht
    obtain ⟨s, -, ht⟩ := bind_eq_ok.mp ht
    obtain ⟨-, u, -, rfl⟩ := Snapshot.apply_single_eq_ok.mp ht
    exact (hok.keyed hhd).1

/-- What `snapshot` leaves in the caches keeps them right, on a chain without two headers of one
hash. -/
theorem CacheOk.remember (hcch : c.CacheOk chain)
    (hone : ∀ {h m n hd hd'}, chain.getHeader h m = some hd → chain.getHeader h n = some hd' → m = n)
    (hhd : chain.getHeader h n = some hd) {t : Snapshot} (hs : c.snapshot now chain n h [] = .ok t)
    (stored : Bool) : (c.remember stored t).CacheOk chain := by
  intro h' n' hd' s hhd' hk
  have ht := snapshot_sound hok hcch hhd hs
  have hhash := hash_snapshotAt hok hgen hhd ht
  by_cases hh : h' = h
  · subst hh
    obtain rfl := hone hhd' hhd
    have hown : (c.remember stored t).known n' h' = some t := by simp [known, Engine.remember, hhash]
    cases hk.symm.trans hown
    exact ht
  refine hcch hhd' (Eq.trans ?_ hk)
  cases stored <;> simp [known, Engine.remember, hhash, hh]

end

end Engine

end BjutEth.Clique
