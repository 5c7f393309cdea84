/-
# The verification gate

`process_one` hands a block to the engine once `verify_witness_signature` has
passed it or the policy tolerates its failure.  Under both verifying policies the
signature of a block handed over recovers to an address.  The verification compares
that address with the declared witness before it looks it up in the SR set, and the
lenient policy tolerates the first failure: so under it the SR set is consulted only
for a block signed by the witness it declares (`verify_eq_proceed_iff`).

`handed` is the block a round hands to `accept`, and `round_handed` says that a round
feeds the engine nothing else.
-/

import Lightcycle.Relayer.Service

namespace Lightcycle
namespace Relayer

open Store

/-- The signature of the header recovers to an address in the SR set. -/
def Vouched (recover : List.Vector UInt8 32 → List UInt8 → UInt8 → Option Address) (sr : SrSet)
    (header : DecodedHeader) : Prop :=
  ∃ a, recoverWitnessAddress recover header.rawDataHash header.witnessSignature = .ok a ∧
    sr.contains a = true

/-- The signature of the header recovers to an address: to the declared witness, in the SR
set, or under the lenient policy to any other. -/
def Admitted (recover : List.Vector UInt8 32 → List UInt8 → UInt8 → Option Address)
    (policy : VerifyPolicy) (sr : SrSet) (header : DecodedHeader) : Prop :=
  ∃ a, recoverWitnessAddress recover header.rawDataHash header.witnessSignature = .ok a ∧
    (a = header.witness ∧ sr.contains a = true ∨ a ≠ header.witness ∧ policy = .lenient)

variable {recover : List.Vector UInt8 32 → List UInt8 → UInt8 → Option Address}

/-- What `verify_witness_signature` accepts. -/
theorem verifyWitnessSignature_cases (header : DecodedHeader) (sr : SrSet) :
    (∃ e, recoverWitnessAddress recover header.rawDataHash header.witnessSignature = .error e ∧
      verifyWitnessSignature recover header sr = .error e ∧ ∀ w a, e ≠ .witnessAddressMismatch w a) ∨
    ∃ a, recoverWitnessAddress recover header.rawDataHash header.witnessSignature = .ok a ∧
      verifyWitnessSignature recover header sr =
        if a ≠ header.witness then .error (.witnessAddressMismatch header.witness a)
        else if ¬ sr.contains a then .error (.witnessNotInSrSet a sr.len) else .ok () := by
  unfold verifyWitnessSignature
  cases h : recoverWitnessAddress recover header.rawDataHash header.witnessSignature with
  | ok a => exact Or.inr ⟨a, rfl, rfl⟩
  | error e =>
    refine Or.inl ⟨e, rfl, rfl, fun w a he => ?_⟩
    unfold recoverWitnessAddress at h
    split_ifs at h
    · cases h
      cases he
    · simp only at h
      split at h
      · cases h
        cases he
      · cases h

/-- **What the gate lets through**, once there is an SR set: a header whose signature
recovers to the declared witness, in the set, or under the lenient policy to another
address. -/
theorem verify_eq_proceed_iff {policy : VerifyPolicy} (hpol : policy ≠ .disabled) (sr : SrSet)
    (header : DecodedHeader) :
    verify recover policy (some sr) header = .proceed ↔ Admitted recover policy sr header := by
  rcases @verifyWitnessSignature_cases recover header sr with
    ⟨e, hrec, hver, hne⟩ | ⟨a, hrec, hver⟩
  · have hno : ¬ Admitted recover policy sr header := by
      rintro ⟨a, ha, -⟩
      rw [hrec] at ha
      cases ha
    refine iff_of_false (fun h => ?_) hno
    cases policy with
    | disabled => exact hpol rfl
    | lenient =>
      simp only [verify, hver] at h
      cases e with
      | witnessAddressMismatch w a => exact hne w a rfl
      | _ => cases h
    | strict =>
      simp only [verify, hver] at h
      cases e with
      | witnessAddressMismatch w a => exact hne w a rfl
      | _ => cases h
  · have hadm : Admitted recover policy sr header ↔
        (a = header.witness ∧ sr.contains a = true ∨ a ≠ header.witness ∧ policy = .lenient) := by
      constructor
      · rintro ⟨b, hb, h⟩
        obtain rfl := Except.ok.inj (hrec.symm.trans hb)
        exact h
      · exact fun h => ⟨a, hrec, h⟩
    rw [hadm]
    by_cases hw : a = header.witness
    · by_cases hsr : sr.contains a = true
      · rw [if_neg (not_not.2 hw), if_neg (not_not.2 hsr)] at hver
        cases policy with
        | disabled => exact absurd rfl hpol
        | lenient => simp [verify, hver, hw ▸ hsr, hw]
        | strict => simp [verify, hver, hw ▸ hsr, hw]
      · rw [if_neg (not_not.2 hw), if_pos hsr] at hver
        cases policy with
        | disabled => exact absurd rfl hpol
        | lenient => simp [verify, hver, hw ▸ hsr, hw]
        | strict => simp [verify, hver, hw ▸ hsr, hw]
    · rw [if_pos hw] at hver
      cases policy with
      | disabled => exact absurd rfl hpol
      | lenient => simp [verify, hver, hw]
      | strict => simp [verify, hver, hw]

namespace ReorgEngine

variable {e e' : ReorgEngine} {out : List Output}

/-- The block a call of `accept` emits as `New` is the one it was handed. -/
theorem decoded_of_accept {d : DecodedBlock} {txInfos : List DecodedTxInfo} (hw : e.Wf)
    (hc : e.call (.accept d txInfos) = some (e', out)) : ∀ b ∈ accepted out, b.decoded = d := by
  cases step_of_call hw hc with
  | refused => simp [accepted]
  | attached d txInfos kept orphans ha =>
    intro b hb
    rw [accepted_attach] at hb
    obtain rfl := List.mem_singleton.1 hb
    rfl

end ReorgEngine

namespace RelayerService

/-- The block a round hands to `accept`: the loop is running, the channel is open and the
outputs of the first half were sent. -/
def handed (recover : List.Vector UInt8 32 → List UInt8 → UInt8 → Option Address)
    (svc : RelayerService) (t : Tick) : Option FetchedBlock :=
  if svc.exited then none
  else if svc.outputTx = some 0 then none
  else
    match (svc.observeSolidified t.solid).2.2 with
    | .error _ => none
    | .ok () => (svc.observeSolidified t.solid).1.passed recover t.srSet t.head

variable {svc svc' : RelayerService} {sent : List Output} {t : Tick}

/-- The first half of a tick leaves the policy alone. -/
theorem observeSolidified_verifyPolicy (svc : RelayerService) (solid : Except String (Option ℕ)) :
    (svc.observeSolidified solid).1.verifyPolicy = svc.verifyPolicy := by
  rcases solid with e | _ | h
  · rfl
  · rfl
  · exact forward_verifyPolicy _ _

/-- A block handed over was let through. -/
theorem verify_of_handed {fetched : FetchedBlock} (h : svc.handed recover t = some fetched) :
    verify recover svc.verifyPolicy t.srSet fetched.decoded.header = .proceed := by
  unfold handed passed at h
  rw [← observeSolidified_verifyPolicy svc t.solid]
  split_ifs at h
  split at h
  · cases h
  · split at h
    · cases h
    · split_ifs at h
      split at h
      · rename_i hv
        obtain rfl := Option.some.inj h
        exact hv
      · cases h

/-- The first half of a tick accepts no block. -/
theorem accepted_observeSolidified (hw : svc.engine.Wf) (solid : Except String (Option ℕ)) :
    accepted (svc.observeSolidified solid).2.1 = [] := by
  rcases solid with e | _ | h
  · rfl
  · rfl
  · have hcall : svc.engine.call (.setSolidifiedHead h) =
        some ((svc.engine.setSolidifiedHead h).1, (svc.engine.setSolidifiedHead h).2) := rfl
    refine List.eq_nil_iff_forall_not_mem.2 fun b hb => ?_
    have hmem := accepted_subset (forward_isPrefix _ _) b hb
    rw [(ReorgEngine.step_of_call hw hcall).accepted_head] at hmem
    cases hmem

/-- **A round calls `accept` with the block it hands over, or not at all**, and the blocks it
sends as `New` are that one. -/
theorem round_handed (hw : svc.engine.Wf) (h : svc.round recover t = some (svc', sent)) :
    svc'.verifyPolicy = svc.verifyPolicy ∧
      ((svc.handed recover t = none ∧ accepted sent = [] ∧
          (svc'.engine = svc.engine ∨ svc'.engine = (svc.observeSolidified t.solid).1.engine)) ∨
        ∃ fetched out, svc.handed recover t = some fetched ∧
          (svc.observeSolidified t.solid).1.engine.call
            (.accept fetched.decoded fetched.txInfos) = some (svc'.engine, out) ∧
          ∀ b ∈ accepted sent, b.decoded = fetched.decoded) := by
  unfold round at h
  unfold handed
  split_ifs at h ⊢ with hexited hclosed
  · obtain ⟨rfl, rfl⟩ := Prod.mk.inj (Option.some.inj h)
    exact ⟨rfl, Or.inl ⟨rfl, rfl, Or.inl rfl⟩⟩
  · obtain ⟨rfl, rfl⟩ := Prod.mk.inj (Option.some.inj h)
    exact ⟨rfl, Or.inl ⟨rfl, rfl, Or.inl rfl⟩⟩
  · obtain ⟨r, hr, hres⟩ := Option.map_eq_some_iff.1 h
    have hsame : svc'.engine = r.1.engine ∧ svc'.verifyPolicy = r.1.verifyPolicy ∧
        sent = r.2.1 := by
      split at hres
      · obtain ⟨rfl, rfl⟩ := Prod.mk.inj hres
        exact ⟨rfl, rfl, rfl⟩
      · obtain ⟨rfl, rfl⟩ := Prod.mk.inj hres
        exact ⟨rfl, rfl, rfl⟩
    obtain ⟨heng, hpol, rfl⟩ := hsame
    have hw' := wf_observeSolidified hw t.solid
    have hnone := accepted_observeSolidified hw t.solid
    rw [heng, hpol]
    unfold tickOnce at hr
    simp only at hr
    cases he : (svc.observeSolidified t.solid).2.2 with
    | error e =>
      rw [he] at hr
      obtain rfl := Option.some.inj hr
      exact ⟨observeSolidified_verifyPolicy _ _, Or.inl ⟨rfl, hnone, Or.inr rfl⟩⟩
    | ok u =>
      rw [he] at hr
      obtain ⟨r', hr', rfl⟩ := Option.map_eq_some_iff.1 hr
      obtain ⟨hp, hcases⟩ := observeHead_passed hr'
      refine ⟨hp.trans (observeSolidified_verifyPolicy _ _), ?_⟩
      simp only [accepted_append, hnone, List.nil_append]
      rcases hcases with ⟨hpass, heng', hout⟩ | ⟨fetched, out, hpass, hcall, hpre⟩
      · exact Or.inl ⟨hpass, by rw [hout]; rfl, Or.inr heng'⟩
      · refine Or.inr ⟨fetched, out, hpass, hcall, fun b hb => ?_⟩
        exact ReorgEngine.decoded_of_accept hw' hcall b (accepted_subset hpre b hb)

/-- The policy is the one the service was made with, in every state of a run. -/
theorem verifyPolicy_of_rounds {config : ReorgConfig} {engine : ReorgEngine}
    {policy : VerifyPolicy} {cache : Option (BlockCache BufferedBlock)}
    {headTx : Option (Option ℕ)} {tx : Option ℕ} {ticks : List Tick}
    (hnew : ReorgEngine.new config = some engine)
    (h : Run.run (round recover) (new engine policy cache headTx tx) ticks = some (svc, sent)) :
    svc.verifyPolicy = policy ∧ svc.engine.Wf := by
  have hstep : ∀ (s : RelayerService) (t : Tick) (s' : RelayerService) (out : List Output),
      (s.verifyPolicy = policy ∧ s.engine.Wf) → round recover s t = some (s', out) →
      s'.verifyPolicy = policy ∧ s'.engine.Wf := by
    rintro s t s' out ⟨hp, hw⟩ hs
    exact ⟨(round_handed hw hs).1.trans hp, wf_of_round hw hs⟩
  exact Run.run_preserves hstep ⟨rfl, ReorgEngine.wf_new hnew⟩ h

end RelayerService

/-- **What the verification gate guarantees.**  In every run of the service that verifies,
with an SR set at every tick, the signature of each block handed to `accept` recovers to an
address: under the strict policy to the declared witness, which is in the SR set of that
tick, and under the lenient policy to the same or to another address than the declared
witness.  So does that of each block sent as `New`. -/
theorem rounds_admitted (recover : List.Vector UInt8 32 → List UInt8 → UInt8 → Option Address)
    (config : ReorgConfig) (engine : ReorgEngine) (policy : VerifyPolicy)
    (cache : Option (BlockCache BufferedBlock)) (headTx : Option (Option ℕ)) (tx : Option ℕ)
    (ticks : List Tick) (hnew : ReorgEngine.new config = some engine) (hpol : policy ≠ .disabled)
    (hsr : ∀ t ∈ ticks, t.srSet.isSome = true) (pre post : List Tick) (t : Tick)
    (hsplit : ticks = pre ++ t :: post) (svc : RelayerService) (sent : List Output)
    (hrun : Run.run (RelayerService.round recover)
      (RelayerService.new engine policy cache headTx tx) pre = some (svc, sent)) :
    ∃ sr, t.srSet = some sr ∧
      (∀ fetched, svc.handed recover t = some fetched →
        Admitted recover policy sr fetched.decoded.header) ∧
      ∀ svc' out, svc.round recover t = some (svc', out) → ∀ s, .new s ∈ out →
        Admitted recover policy sr s.block.decoded.header := by
  obtain ⟨sr, hsome⟩ := Option.isSome_iff_exists.1 (hsr t (by rw [hsplit]; simp))
  obtain ⟨hp, hw⟩ := RelayerService.verifyPolicy_of_rounds hnew hrun
  have hadm : ∀ fetched, svc.handed recover t = some fetched →
      Admitted recover policy sr fetched.decoded.header := by
    intro fetched h
    have hv := RelayerService.verify_of_handed h
    rw [hp, hsome] at hv
    exact (verify_eq_proceed_iff hpol sr _).1 hv
  refine ⟨sr, hsome, hadm, fun svc' out hround s hs => ?_⟩
  have hacc : s.block ∈ accepted out := List.mem_filterMap.2 ⟨_, hs, rfl⟩
  rcases (RelayerService.round_handed hw hround).2 with ⟨-, hnone, -⟩ | ⟨fetched, -, h, -, hdec⟩
  · rw [hnone] at hacc
    cases hacc
  · rw [hdec _ hacc]
    exact hadm fetched h

/-- A tick that reads a block, with one SR in the set. -/
def tickOf (sr : Address) (decoded : DecodedBlock) : Tick where
  srSet := some ⟨{sr}⟩
  solid := .ok none
  head := .ok ⟨decoded, []⟩

/-- The hypotheses hold of a strict service that reads two blocks signed by the one SR. -/
theorem rounds_admitted_strict :
    ∃ engine svc sent, ReorgEngine.new ReorgConfig.default = some engine ∧
      Run.run (RelayerService.round fun _ _ _ => some (Address.fill 0x41))
        (RelayerService.new engine .strict none none none)
        [tickOf (Address.fill 0x41) (synthAt 1 0 0)] = some (svc, sent) ∧
      ∃ sr, (tickOf (Address.fill 0x41) (synthAt 2 0 0)).srSet = some sr ∧
        (∀ fetched, svc.handed (fun _ _ _ => some (Address.fill 0x41))
            (tickOf (Address.fill 0x41) (synthAt 2 0 0)) = some fetched →
          Admitted (fun _ _ _ => some (Address.fill 0x41)) .strict sr fetched.decoded.header) ∧
        ∀ svc' out, svc.round (fun _ _ _ => some (Address.fill 0x41))
            (tickOf (Address.fill 0x41) (synthAt 2 0 0)) = some (svc', out) →
          ∀ s, .new s ∈ out →
            Admitted (fun _ _ _ => some (Address.fill 0x41)) .strict sr s.block.decoded.header :=
  ⟨_, _, _, rfl, rfl, rounds_admitted (fun _ _ _ => some (Address.fill 0x41)) ReorgConfig.default _
    .strict none none none
    [tickOf (Address.fill 0x41) (synthAt 1 0 0), tickOf (Address.fill 0x41) (synthAt 2 0 0)] rfl
    (by decide) (by simp [tickOf]) [_] [] _ rfl _ _ rfl⟩

/-- **A signer outside the SR set passes the lenient policy** by declaring another witness:
the mismatch is found first, and tolerated. -/
theorem rogue_signer_admitted :
    ¬ ∀ (recover : List.Vector UInt8 32 → List UInt8 → UInt8 → Option Address)
      (config : ReorgConfig) (engine : ReorgEngine) (policy : VerifyPolicy)
      (cache : Option (BlockCache BufferedBlock)) (headTx : Option (Option ℕ)) (tx : Option ℕ)
      (ticks : List Tick), ReorgEngine.new config = some engine → policy ≠ .disabled →
      (∀ t ∈ ticks, t.srSet.isSome = true) → ∀ (pre post : List Tick) (t : Tick),
      ticks = pre ++ t :: post → ∀ (svc : RelayerService) (sent : List Output),
      Run.run (RelayerService.round recover)
        (RelayerService.new engine policy cache headTx tx) pre = some (svc, sent) →
      ∃ sr, t.srSet = some sr ∧
        (∀ fetched, svc.handed recover t = some fetched →
          Vouched recover sr fetched.decoded.header) ∧
        ∀ svc' out, svc.round recover t = some (svc', out) → ∀ s, .new s ∈ out →
          Vouched recover sr s.block.decoded.header := by
  intro h
  -- every signature recovers to an address that is not the SR
  obtain ⟨sr, hsr, hhanded, -⟩ := h (fun _ _ _ => some (Address.fill 0x42)) ReorgConfig.default _
    .lenient none none none [tickOf (Address.fill 0x41) (synthAt 1 0 0)] rfl (by decide)
    (by simp [tickOf]) [] [] _ rfl _ _ rfl
  obtain ⟨a, ha, hin⟩ := hhanded ⟨synthAt 1 0 0, []⟩ (by decide)
  obtain rfl := Option.some.inj hsr
  obtain rfl : Address.fill 0x42 = a := Except.ok.inj ha
  revert hin
  decide

end Relayer
end Lightcycle
