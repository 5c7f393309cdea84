/-
# Resuming from a cursor across a reorg

A consumer drops its call and presents the cursor of the last response it took.  The new call
starts one above the height in the cursor (`crates/lightcycle-firehose/src/server.rs`); the
block id in the cursor, there so that resumption is aware of a reorg
(`crates/lightcycle-relayer/src/cursor.rs`), is not looked at.

The consumer keeps its stack.  When the new call has a backfill, its first row must be a
child of the top, and from there it is a backfilled subscriber as any other (`session_iff`).
When it has none the consumer joins the broadcast with the stack it has, and what it receives
fits as long as the relayer stays in what both have on top (`Replay.Meets`).
-/

import Lightcycle.Firehose.Reorg

namespace Lightcycle
namespace Firehose

open Relayer Store

variable {prost : Prost} {capacity : ℕ}

/-- The stack of a consumer after what it took. -/
def consumerStack (received : List Response) : List Shown :=
  Replay.replay [] (received.map Response.event)

/-! ### What was taken was accepted -/

/-- The response shows a block that was accepted, if it pushes one. -/
def Response.Accepted (outs : List Output) (r : Response) : Prop :=
  ∀ x, r.event = .push x → ∃ b ∈ accepted outs, shown b = x

/-- What was accepted stays accepted. -/
theorem Response.Accepted.mono {outs outs' : List Output} {r : Response}
    (h : r.Accepted outs) (he : outs <+: outs') : r.Accepted outs' := by
  intro x hx
  obtain ⟨b, hb, hbx⟩ := h x hx
  exact ⟨b, accepted_subset he b hb, hbx⟩

/-- A live response is that of an output on the wire. -/
theorem mem_live {backfill : List Response} {outs : List Output} {r : Response}
    (hr : r ∈ Phase.live prost backfill outs) :
    ∃ s step, (s, step) ∈ wire outs ∧ r = streamableToResponse prost s step := by
  cases hlast : lastBackfillHeight backfill with
  | none =>
    rw [live_of_none hlast] at hr
    obtain ⟨x, hx, rfl⟩ := List.mem_map.1 hr
    exact ⟨x.1, x.2, hx, rfl⟩
  | some last =>
    rw [live_of_some hlast] at hr
    obtain ⟨x, hx, rfl⟩ := List.mem_map.1 hr
    exact ⟨x.1, x.2, (List.mem_filter.1 hx).1, rfl⟩

/-- It shows a block that was accepted. -/
theorem accepted_of_live {backfill : List Response} {outs : List Output} {r : Response}
    (hr : r ∈ Phase.live prost backfill outs) : r.Accepted outs := by
  obtain ⟨s, step, hs, rfl⟩ := mem_live hr
  intro x hx
  cases step with
  | stepNew =>
    refine ⟨s.block, ?_, Replay.Event.push.inj hx⟩
    rw [accepted_eq_wire]
    exact List.mem_map.2 ⟨(s, .stepNew), List.mem_filter.2 ⟨hs, rfl⟩, rfl⟩
  | stepUndo => cases hx
  | stepFinal => cases hx

namespace World

variable {w w' : World} {a : Action}

/-- Only a call that streams has delivered anything. -/
theorem exists_streaming {r : Response} (hr : r ∈ w.delivered prost) :
    ∃ pos start backfill, w.session = some (.streaming pos start backfill) ∧
      r ∈ backfill ++ Phase.live prost backfill (w.pipeline.log.drop pos) := by
  cases hsession : w.session with
  | none => simp [World.delivered, hsession] at hr
  | some s =>
    rw [World.delivered, hsession] at hr
    cases s with
    | streaming pos start backfill => exact ⟨pos, start, backfill, rfl, hr⟩
    | _ => cases hr

/-- **All that a call delivers was accepted**, when there is no archive. -/
theorem Ok.accepted_delivered (h : w.Ok prost capacity) (harc : w.pipeline.archive = none)
    (htr : Traced w.pipeline.outs) : ∀ r ∈ w.delivered prost, r.Accepted w.pipeline.outs := by
  intro r hr
  have hfedo := w.pipeline.fed_prefix_outs
  obtain ⟨pos, start, backfill, hsession, hr⟩ := exists_streaming hr
  have hok := h.session _ hsession
  rcases List.mem_append.1 hr with hr | hr
  · cases start with
    | none =>
      obtain rfl := hok.2
      cases hr
    | some start =>
      obtain ⟨-, F', head, -, -, cached, -, -, hfed, -, rfl, -, -, hall⟩ := hok.2.cacheOnly harc
        fun F hF => keyed_cacheOf (htr.of_isPrefix (hF.trans hfedo))
      obtain ⟨b, hb, rfl⟩ := List.mem_map.1 hr
      obtain ⟨id, hid⟩ := hall b hb
      have hmem := (mem_stack_of_cached (htr.of_isPrefix (hfed.trans hfedo)) hid).1
      exact fun x hx => ⟨b, accepted_subset (hfed.trans hfedo) b (mem_accepted_of_mem_stackOf hmem),
        Replay.Event.push.inj hx⟩
  · intro x hx
    obtain ⟨b, hb, hbx⟩ := accepted_of_live hr x hx
    refine ⟨b, accepted_subset (w.pipeline.log_prefix_fed.trans hfedo) b ?_, hbx⟩
    rw [← List.take_append_drop pos w.pipeline.log, accepted_append]
    exact List.mem_append_right _ hb

/-- What a step does to what the consumer took. -/
theorem step_received (hs : w.step prost a = some w') :
    w'.received = w.received ∨
      ∃ taken, ¬ a.Stays ∧ w'.received = w.received ++ (w.delivered prost).take taken := by
  cases moves_of_step hs with
  | reconnect taken hlast => exact Or.inr ⟨taken, id, rfl⟩
  | _ => exact Or.inl rfl

/-- While the consumer stays on its call, it has taken what it had when it opened it. -/
theorem received_of_stays {acts : List Action} (hrun : Run.exec (World.step prost) w acts = some w')
    (hstay : ∀ a ∈ acts, a.Stays) : w'.received = w.received := by
  refine Run.exec_preserves_of_forall (C := Action.Stays) (I := fun v => v.received = w.received)
    ?_ hstay rfl hrun
  intro v a v' ha hv hs
  rcases step_received hs with heq | ⟨_, hleaves, -⟩
  · rw [heq, hv]
  · exact absurd ha hleaves

/-- **What the consumer took was accepted.** Without an archive every block it was shown is
one the relayer has accepted, over any number of calls. -/
theorem accepted_received {config : ReorgConfig} {acts : List Action} {w₀ : World}
    (hinit : World.init config capacity none = some w₀)
    (hrun : Run.exec (World.step prost) w₀ acts = some w) (htr : Traced w.pipeline.outs) :
    ∀ r ∈ w.received, r.Accepted w.pipeline.outs := by
  obtain ⟨hok₀, -, harc₀⟩ : w₀.Ok prost capacity ∧ _ := World.ok_init hinit
  have hnone : w₀.received = [] := by
    obtain ⟨p, -, rfl⟩ := Option.map_eq_some_iff.1 hinit
    rfl
  refine (Run.exec_preserves (I := fun v : World => v.Ok prost capacity ∧
    v.pipeline.archive.isSome = false ∧
    (Traced v.pipeline.outs → ∀ r ∈ v.received, r.Accepted v.pipeline.outs))
    ?_ ⟨hok₀, by rw [harc₀]; rfl, fun _ r hr => ?_⟩ hrun).2.2 htr
  · rintro v a v' ⟨hok, harc, hall⟩ hs
    obtain ⟨hok', hext⟩ := hok.step hs
    refine ⟨hok', hext.archive.trans harc, fun htr' r hr => ?_⟩
    have htr := htr'.of_isPrefix hext.outs
    rcases step_received hs with heq | ⟨taken, -, heq⟩
    · exact (hall htr r (heq ▸ hr)).mono hext.outs
    · rw [heq] at hr
      rcases List.mem_append.1 hr with hr | hr
      · exact (hall htr r hr).mono hext.outs
      · exact (hok.accepted_delivered (by simpa using harc) htr r
          (List.mem_of_mem_take hr)).mono hext.outs
  · rw [hnone] at hr
    cases hr

end World

/-- What is on the consumer's stack was accepted. -/
theorem accepted_of_mem_consumerStack {outs : List Output} {received : List Response}
    (h : ∀ r ∈ received, r.Accepted outs) {x : Shown} (hx : x ∈ consumerStack received) :
    ∃ b ∈ accepted outs, shown b = x := by
  rcases Replay.mem_replay hx with hx | hx
  · cases hx
  · obtain ⟨r, hr, hpush⟩ := List.mem_map.1 hx
    exact h r hr x hpush

/-! ### One call -/

/-- Without a backfill everything that moves a stack is delivered. -/
theorem soundWhile_live_nil (S : List Shown) (outs : List Output) :
    Replay.SoundWhile shownLink S ((Phase.live prost [] outs).map Response.event) ↔
      Replay.SoundWhile shownLink S ((outs.map Output.event).map (Replay.Event.map shown)) := by
  rw [live_of_none rfl]
  induction outs generalizing S with
  | nil => exact Iff.rfl
  | cons o outs ih =>
    have hwired : ∀ (s : StreamableBlock) (step : ForkStep) (e : Replay.Event Shown),
        (streamableToResponse prost s step).event = e →
        (Replay.SoundWhile shownLink S ((((s, step) :: wire outs).map fun x =>
            streamableToResponse prost x.1 x.2).map Response.event) ↔
          Replay.SoundWhile shownLink S
            (e :: (outs.map Output.event).map (Replay.Event.map shown))) := by
      rintro s step e rfl
      rw [List.map_cons, List.map_cons, Replay.soundWhile_cons, Replay.soundWhile_cons, ih]
    have hkeep : Replay.SoundWhile shownLink S (((wire outs).map fun x =>
          streamableToResponse prost x.1 x.2).map Response.event) ↔
        Replay.SoundWhile shownLink S
          (.keep :: (outs.map Output.event).map (Replay.Event.map shown)) := by
      rw [Replay.soundWhile_cons, ih]
      exact (and_iff_right fun _ => trivial).symm
    cases o with
    | new s => exact hwired s .stepNew _ rfl
    | undo s => exact hwired s .stepUndo _ rfl
    | irreversible s => exact hwired s .stepFinal _ rfl
    | _ => exact hkeep

/-- **What a call without a backfill delivers**, on a stack of accepted blocks: the client and
the relayer meet. -/
theorem session_nil_iff {outs log : List Output} (htr : Traced outs) (hlog : log <+: outs)
    (pos : ℕ) {S : List Shown} (hS : ∀ x ∈ S, ∃ b ∈ accepted outs, shown b = x) :
    Replay.SoundWhile shownLink S
        ((Phase.live prost [] (log.drop pos)).map Response.event) ↔
      Replay.Meets shownLink S ((stackOf (log.take pos)).map shown)
        (((log.drop pos).map Output.event).map (Replay.Event.map shown)) := by
  rw [soundWhile_live_nil]
  refine Replay.soundWhile_iff_meets ((sound_since (htr.of_isPrefix hlog).parent pos).map
    fun b t hbt => congrArg BlockId.hex hbt) fun b s t hs ht hbs hbt => ?_
  obtain ⟨s', hs', rfl⟩ := hS s hs
  obtain ⟨t', ht', rfl⟩ := List.mem_map.1 ht
  exact shown_eq_of_id htr hs' (accepted_subset ((List.take_prefix pos log).trans hlog) t'
    (mem_accepted_of_mem_stackOf ht')) (hbs.symm.trans hbt)

/-- Where the new call picks up fits the consumer's stack `S`.  With a backfill, from `h` up
to `mx`: the block cached at `h` is a child of the top, and the tip stays.  Without one: the
consumer and the relayer meet. -/
def PicksUp (S : List Shown) (cache : BlockCache BufferedBlock) (log : List Output)
    (pos h mx : ℕ) : Prop :=
  (h ≤ mx → (∀ id b t, cache.getByHeight h = some (id, b) → S.head? = some t →
    shownLink (shown b) t) ∧ TipStays cache log pos mx) ∧
  (mx < h → Replay.Meets shownLink S ((stackOf (log.take pos)).map shown)
    (((log.drop pos).map Output.event).map (Replay.Event.map shown)))

/-- **When resuming from a cursor is reorg-correct.**  A consumer has taken some responses,
presents the cursor of the last, and the new call is accepted with a backfill from `h` to
the tip `mx` of its snapshot, empty if `h` is above.  What the call delivers, on the stack
the consumer has, undoes the top and extends the top exactly when the call picks up where
the consumer is. -/
theorem resumed_sound_iff (prost : Prost) (config : ReorgConfig) (capacity : ℕ)
    (before reads after : List Action) (w₀ v v' w₁ w₂ w : World) (taken pos h mn mx : ℕ)
    (head : Option ℕ) (rows backfill : List Response)
    (hinit : World.init config capacity none = some w₀)
    (hbefore : Run.exec (World.step prost) w₀ before = some v)
    (hresume : v.step prost (.reconnect taken) = some v')
    (hreads : Run.exec (World.step prost) v' reads = some w₁) (hsame : ∀ a ∈ reads, a.Stays)
    (hread : w₁.session = some (.archived pos h head (some (mn, mx)) rows))
    (hadv : w₁.step prost .advance = some w₂)
    (hsession : w₂.session = some (.streaming pos (some h) backfill))
    (hafter : Run.exec (World.step prost) w₂ after = some w) (hstay : ∀ a ∈ after, a.Stays)
    (hc : ChainRule w.pipeline.outs) :
    Replay.SoundWhile shownLink (consumerStack v'.received)
        ((w.delivered prost).map Response.event) ↔
      PicksUp (consumerStack v'.received) w₁.pipeline.cache w.pipeline.log pos h mx := by
  have hrun : Run.exec (World.step prost) w₀ (before ++ .reconnect taken :: reads) = some w₁ :=
    Run.exec_append_eq_some.2 ⟨v, hbefore, Run.exec_cons_eq_some.2 ⟨v', hresume, hreads⟩⟩
  rw [← World.received_of_stays hreads hsame]
  rcases Nat.lt_or_ge mx h with hgt | hle
  · -- nothing is backfilled
    obtain ⟨hok₁, hcap, harc⟩ := archive_of_run hinit hrun
    obtain ⟨hok₂, hext₁⟩ := hok₁.step hadv
    obtain ⟨hok, hext₂⟩ := hok₂.exec hafter
    have hext := hext₁.trans hext₂
    have htr : Traced w.pipeline.outs := hok.pipeline.reached.traced hc
    have hfedo := hext.fed.trans w.pipeline.fed_prefix_outs
    obtain ⟨-, -, F, cached, -, -, -, rfl, -, hh, -⟩ := hok₁.walk (by simpa using harc)
      (fun F hF => keyed_cacheOf (htr.of_isPrefix (hF.trans hfedo))) hread hadv hsession
    obtain rfl : cached = [] := eq_nil_of_range' hh hgt
    have htaken : ∀ x ∈ consumerStack w₁.received, ∃ b ∈ accepted w.pipeline.outs, shown b = x :=
      fun x hx => accepted_of_mem_consumerStack (fun r hr => (World.accepted_received hinit hrun
        (htr.of_isPrefix hext.outs) r hr).mono hext.outs) hx
    rw [World.delivered_of_stays hsession hafter hstay, List.map_nil, List.nil_append,
      session_nil_iff htr (w.pipeline.log_prefix_fed.trans w.pipeline.fed_prefix_outs) pos htaken]
    exact ⟨fun hmeets => ⟨fun hle => by omega, fun _ => hmeets⟩, fun hpicks => hpicks.2 hgt⟩
  · rw [session_iff hinit hrun hread hadv hsession hle hafter hstay hc _]
    exact ⟨fun hboth => ⟨fun _ => hboth, fun hgt => by omega⟩, fun hpicks => hpicks.1 hle⟩

/-- **A resume across a reorg**: the consumer took blocks 1 and 2, block 2 has been replaced and
the replacement extended, and from the cursor of the old block 2 the call delivers block 3 of
the new branch on it. -/
theorem resumed_orphan : ¬ ∀ (prost : Prost) (config : ReorgConfig) (capacity : ℕ)
    (before after : List Action) (w₀ v v' w : World) (taken pos h : ℕ) (backfill : List Response),
    World.init config capacity none = some w₀ →
    Run.exec (World.step prost) w₀ before = some v →
    v.step prost (.reconnect taken) = some v' →
    Run.exec (World.step prost) v' after = some w → (∀ a ∈ after, a.Stays) →
    ChainRule w.pipeline.outs → w.session = some (.streaming pos (some h) backfill) →
    Replay.SoundWhile shownLink (consumerStack v'.received)
      ((w.delivered prost).map Response.event) := by
  intro hall
  exact absurd (hall (prostOf []) ⟨4, 1⟩ 8 (bothBroadcast 1 ++ .advance :: reorgUnder)
    [.advance, .advance, .advance, .advance, .advance] _ _ _ _ 2 6 3 _ rfl rfl rfl rfl
    (by simp [Action.Stays]) (by decide) rfl) (by decide)

/-- The hypotheses hold of a consumer that took block 1, and resumes at block 2 before block 3
comes. -/
theorem resumed_sound_iff_second :
    ∃ w₀ v v' w₁ w₂ w, World.init ⟨4, 1⟩ 8 none = some w₀ ∧
      Run.exec (World.step (prostOf [])) w₀ (bothBroadcast 1 ++ [.advance]) = some v ∧
      v.step (prostOf []) (.reconnect 1) = some v' ∧
      Run.exec (World.step (prostOf [])) v' [.advance, .advance, .advance, .advance] = some w₁ ∧
      w₁.step (prostOf []) .advance = some w₂ ∧
      Run.exec (World.step (prostOf [])) w₂ thirdOnTop = some w ∧
      (Replay.SoundWhile shownLink (consumerStack v'.received)
          ((w.delivered (prostOf [])).map Response.event) ↔
        PicksUp (consumerStack v'.received) w₁.pipeline.cache w.pipeline.log 2 2 2) :=
  ⟨_, _, _, _, _, _, rfl, rfl, rfl, rfl, rfl, rfl,
    resumed_sound_iff (prostOf []) ⟨4, 1⟩ 8 (bothBroadcast 1 ++ [.advance])
      [.advance, .advance, .advance, .advance] thirdOnTop _ _ _ _ _ _ 1 2 2 1 2 none _ _
      rfl rfl rfl rfl (by simp [Action.Stays]) rfl rfl rfl rfl
      (by simp [thirdOnTop, deliver, Action.Stays]) (by decide)⟩

end Firehose
end Lightcycle
