import BjutEth.Alien.VerifyHeader

namespace BjutEth.Alien

variable {rt : UInt64 → Runtime} {crypto : Crypto} {chain : ChainReader} {now : ℕ} {header : Header}
  {parents : List Header} {e e' : Engine}

theorem verifyMainChainSeal_eq_ok {rt : Runtime} {cfg : Config} {snap : Snapshot}
    {signer : Address} : verifyMainChainSeal chain rt cfg header parents snap signer = .ok () ↔
      (cfg.maxSignerCount < bigUint64 header.number →
        verifyLoop chain rt cfg header parents snap signer = .ok ()) ∧
      snap.inturn cfg signer (bigUint64 header.time) = .ok true := by
  have hturn : ∀ x : Go Bool, (x >>= fun inturn ↦ failIf (inturn = false) .unauthorized) = .ok () ↔
      x = .ok true := by
    intro x
    simp only [Outcome.bind_eq_ok, failIf_eq_ok, Bool.not_eq_false, exists_eq_right]
  unfold verifyMainChainSeal
  split_ifs with hnum
  · rw [Outcome.unit_bind_eq_ok, hturn]
    exact and_congr_left' ⟨fun h _ ↦ h, fun h ↦ h hnum⟩
  · rw [hturn]
    exact ⟨fun h ↦ ⟨fun h' ↦ absurd h' hnum, h⟩, And.right⟩

theorem verifyLoop_eq_ok {rt : Runtime} {cfg : Config} {snap : Snapshot} {signer : Address} :
    verifyLoop chain rt cfg header parents snap signer = .ok () ↔
      ∃ parent parentExtra currentExtra queue, parentOf chain header parents = some parent ∧
        decodeExtra parent = .ok parentExtra ∧ decodeExtra header = .ok currentExtra ∧
        verifyQueue chain rt cfg header parent snap signer parentExtra currentExtra = .ok () ∧
        parentSignerMissing chain cfg header parent parents parentExtra =
          .ok (currentExtra.signerMissing, queue) := by
  unfold verifyLoop
  cases hpar : parentOf chain header parents with
  | none =>
    refine ⟨fun h ↦ (by cases h), ?_⟩
    rintro ⟨_, _, _, _, h, -⟩
    cases h
  | some parent =>
    simp only [Outcome.bind_eq_ok (α := HeaderExtra), Outcome.unit_bind_eq_ok,
      Outcome.bind_eq_ok (α := List Address × List Address), failIf_eq_ok, ne_eq, not_not]
    constructor
    · rintro ⟨parentExtra, hp, currentExtra, hc, hq, ⟨missing, queue⟩, hm, rfl⟩
      exact ⟨parent, parentExtra, currentExtra, queue, rfl, hp, hc, hq, hm⟩
    rintro ⟨_, parentExtra, currentExtra, queue, hsome, hp, hc, hq, hm⟩
    cases hsome
    exact ⟨parentExtra, hp, currentExtra, hc, hq, _, hm, rfl⟩

namespace Engine

open Call

variable {C : Config → Prop}

theorem genesisSnapshot_config (votes : List Vote) (lcrs : UInt64)
    (hper : ∀ cfg, C cfg → C { cfg with period := chain.config.period }) :
    Triple (fun e : Engine ↦ C e.config) (genesisSnapshot crypto chain now votes lcrs)
      (fun _ e ↦ C e.config) (fun _ e ↦ C e.config) := by
  refine .bind (.lift (fun _ _ _ h ↦ h) (fun _ _ _ h ↦ h)) (fun _ ↦ ?_)
  refine .bind (.modify (Q := fun _ e ↦ C e.config) (fun e he ↦ hper e.config he)) (fun _ ↦ ?_)
  refine .bind .get (fun e ↦ ?_)
  refine .bind (.modify (Q := fun _ e ↦ C e.config) (fun _ he ↦ he.2)) (fun _ ↦ ?_)
  exact .pure (fun _ he ↦ he)

theorem findSnapshot_config (votes : List Vote) (lcrs : UInt64)
    (hper : ∀ cfg, C cfg → C { cfg with period := chain.config.period }) (number : ℕ) (hash : Hash)
    (parents headers : List Header) :
    Triple (fun e : Engine ↦ C e.config)
      (findSnapshot crypto chain now votes lcrs number hash parents headers)
      (fun _ e ↦ C e.config) (fun _ e ↦ C e.config) := by
  induction number generalizing hash parents headers with
  | zero =>
    refine .bind .get (fun e ↦ ?_)
    cases e.lookup 0 hash with
    | some snap => exact .pure (fun _ he ↦ he.2)
    | none =>
      refine (Triple.bind (genesisSnapshot_config votes lcrs hper) (fun snap ↦ ?_)).mono
        (fun _ he ↦ he.2) (fun _ _ he ↦ he) (fun _ _ he ↦ he)
      exact .pure (fun _ he ↦ he)
  | succ number ih =>
    refine .bind .get (fun e ↦ ?_)
    cases e.lookup (number + 1) hash with
    | some snap => exact .pure (fun _ he ↦ he.2)
    | none =>
      refine .bind (.lift (Q := fun _ e ↦ C e.config) (fun _ _ _ he ↦ he.2) (fun _ _ _ he ↦ he.2))
        (fun header ↦ ?_)
      exact ih _ _ _

theorem snapshot_config (rt : UInt64 → Runtime) (crypto : Crypto)
    (chain : ChainReader) (now : ℕ) (number : UInt64) (hash : Hash) (parents : List Header)
    (votes : List Vote) (lcrs : UInt64) (hper : ∀ cfg, C cfg → C { cfg with period := chain.config.period }) :
    Triple (fun e : Engine ↦ C e.config)
      (snapshot rt crypto chain now number hash parents votes lcrs)
      (fun _ e ↦ C e.config) (fun _ e ↦ C e.config) := by
  refine .bind (findSnapshot_config votes lcrs hper _ _ _ _) (fun found ↦ ?_)
  refine .bind .get (fun e ↦ ?_)
  refine .bind (.lift (Q := fun _ e ↦ C e.config) (fun _ _ _ he ↦ he.2) (fun _ _ _ he ↦ he.2))
    (fun snap ↦ ?_)
  refine .bind (.modify (Q := fun _ e ↦ C e.config) (fun e he ↦ ?_)) (fun _ ↦ .pure (fun _ he ↦ he))
  rwa [keep_config]

theorem verifySeal_eq_ok (hmain : chain.config.sideChain = false) :
    verifySeal crypto chain rt now header parents e = (.ok (), e') ↔
      bigUint64 header.number ≠ 0 ∧ ∃ snap signer,
        snapshot rt crypto chain now (bigUint64 header.number - 1) header.parentHash parents []
          defaultLoopCntRecalculateSigners e = (.ok snap, e') ∧
        crypto.ecrecover header = .ok signer ∧
        (bugFixBlockNumber < header.number → signer = header.coinbase) ∧
        verifyMainChainSeal chain (rt (bigUint64 header.number)) e'.config header parents snap signer =
          .ok () := by
  unfold verifySeal
  simp only [Call.bind_eq_ok, Call.lift_eq_ok, failIf_eq_ok, hmain, Bool.false_eq_true, if_false]
  constructor
  · rintro ⟨_, _, ⟨hnum, rfl⟩, snap, _, hsnap, signer, _, ⟨hsgn, rfl⟩, _, _, ⟨hfix, rfl⟩, _, _,
      hget, hseal, rfl⟩
    obtain ⟨rfl, rfl⟩ := Call.get_eq_ok.mp hget
    exact ⟨hnum, snap, signer, hsnap, hsgn, by simpa using hfix, hseal⟩
  rintro ⟨hnum, snap, signer, hsnap, hsgn, hfix, hseal⟩
  exact ⟨(), e, ⟨hnum, rfl⟩, snap, e', hsnap, signer, e', ⟨hsgn, rfl⟩, (), e',
    ⟨by simpa using hfix, rfl⟩, e', e', rfl, hseal, rfl⟩

theorem verifyHeader_eq_ok (hnum : bigUint64 header.number ≠ 0) :
    verifyHeader crypto chain rt now header parents e = (.ok (), e') ↔
      verifyStandalone crypto now header = .ok () ∧ verifyParent crypto chain header parents = .ok () ∧
      ∃ snap e1, snapshot rt crypto chain now (bigUint64 header.number - 1) header.parentHash parents []
          defaultLoopCntRecalculateSigners e = (.ok snap, e1) ∧
        verifySeal crypto chain rt now header parents e1 = (.ok (), e') := by
  unfold verifyHeader verifyCascadingFields
  simp only [hnum, if_false, Call.bind_eq_ok, Call.lift_eq_ok]
  constructor
  · rintro ⟨_, _, ⟨hstand, rfl⟩, _, _, ⟨hpar, rfl⟩, snap, e1, hsnap, hseal⟩
    exact ⟨hstand, hpar, snap, e1, hsnap, hseal⟩
  · rintro ⟨hstand, hpar, snap, e1, hsnap, hseal⟩
    exact ⟨(), e, ⟨hstand, rfl⟩, (), e, ⟨hpar, rfl⟩, snap, e1, hsnap, hseal⟩

end Engine

end BjutEth.Alien
