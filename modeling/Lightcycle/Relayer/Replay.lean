/-
# Replaying the engine's outputs

A consumer that pushes on `New` and pops on `Undo` holds a stack whose top is the
engine's canonical buffer (`Tracks`): the engine forgets the front of its window,
the consumer does not.  The stack is a linked chain, an `Undo` always names its
top, and the simulation survives every call, refused blocks and reorgs included
(`Step.replay`).

`ChainRule` is the rule of the chain upstream, which the engine does not check: a
block's id determines its header, and a block is one higher than its parent.
-/

import Lightcycle.Relayer.EngineSpec

namespace Lightcycle
namespace Relayer

/-- The block `b` names `t` as its parent. -/
def parentLink (b t : BufferedBlock) : Prop := b.parentId = t.blockId

/-- The block `b` is one higher than `t`. -/
def heightLink (b t : BufferedBlock) : Prop := b.height = t.height + 1

instance : DecidableRel parentLink := fun _ _ => inferInstanceAs (Decidable (_ = _))

instance : DecidableRel heightLink := fun _ _ => inferInstanceAs (Decidable (_ = _))

/-- The consumer's stack after the outputs, top first. -/
def stackOf (outs : List Output) : List BufferedBlock := Replay.replay [] (outs.map Output.event)

/-- The consumer's stack after more outputs is its stack, on which they are replayed. -/
theorem stackOf_append (outs outs' : List Output) :
    stackOf (outs ++ outs') = Replay.replay (stackOf outs) (outs'.map Output.event) := by
  rw [stackOf, List.map_append, Replay.replay_append, stackOf]

/-- An output that is neither `New` nor `Undo`. -/
def Output.Idle (o : Output) : Prop := o.event.Idle

/-- The block of a `New`. -/
def Output.newBlock : Output → Option BufferedBlock
  | .new s => some s.block
  | _ => none

/-- The blocks accepted, in order. -/
def accepted (outs : List Output) : List BufferedBlock := outs.filterMap Output.newBlock

/-- The blocks accepted are those of either part. -/
theorem accepted_append (outs outs' : List Output) :
    accepted (outs ++ outs') = accepted outs ++ accepted outs' := List.filterMap_append

/-- What was accepted stays accepted. -/
theorem accepted_subset {outs outs' : List Output} (h : outs <+: outs') :
    ∀ b ∈ accepted outs, b ∈ accepted outs' := by
  obtain ⟨rest, rfl⟩ := h
  intro b hb
  rw [accepted_append]
  exact List.mem_append_left _ hb

/-- A block that is pushed was accepted. -/
theorem mem_accepted_of_push {outs : List Output} {b : BufferedBlock}
    (h : .push b ∈ outs.map Output.event) : b ∈ accepted outs := by
  obtain ⟨o, ho, hob⟩ := List.mem_map.1 h
  refine List.mem_filterMap.2 ⟨o, ho, ?_⟩
  cases o with
  | new s =>
    obtain rfl := Replay.Event.push.inj hob
    rfl
  | _ => cases hob

/-- A block on the stack was accepted. -/
theorem mem_accepted_of_mem_stackOf {outs : List Output} {b : BufferedBlock}
    (h : b ∈ stackOf outs) : b ∈ accepted outs := by
  rcases Replay.mem_replay h with h | h
  · cases h
  · exact mem_accepted_of_push h

/-- The record agrees with the header it was built from. -/
structure BufferedBlock.Faithful (b : BufferedBlock) : Prop where
  height : b.height = b.decoded.header.height
  blockId : b.blockId = b.decoded.header.blockId
  parentId : b.parentId = b.decoded.header.parentId

namespace ReorgEngine

/-- Resolving forks does not move the stack. -/
theorem idle_resolutions (e : ReorgEngine) : ∀ o ∈ e.resolutions, o.Idle := by
  intro o ho
  obtain ⟨f, -, rfl⟩ := List.mem_map.1 ho
  trivial

/-- What settling appends to the outputs leaves the stack alone. -/
theorem idle_settled (e : ReorgEngine) : ∀ o ∈ e.marks ++ e.resolutions, o.Idle :=
  e.forall_settled (fun _ _ => trivial) fun _ _ => trivial

/-- Settling leaves the consumer's stack alone. -/
theorem stackOf_settled (e : ReorgEngine) (outs : List Output) :
    stackOf (outs ++ (e.marks ++ e.resolutions)) = stackOf outs := by
  rw [stackOf_append, Replay.replay_of_idle]
  intro x hx
  obtain ⟨o, ho, rfl⟩ := List.mem_map.1 hx
  exact e.idle_settled o ho

/-- The engine's buffer is the top of the stack, and the stack is empty until the
first block is accepted. -/
structure Tracks (e : ReorgEngine) (st : List BufferedBlock) : Prop where
  top : ∃ below, st = e.canonical.reverse ++ below
  fresh : e.canonical = [] → st = []

/-- The buffer is the top of the stack, from the bottom up. -/
theorem Tracks.eq_take {e : ReorgEngine} {st : List BufferedBlock} (h : e.Tracks st) :
    e.canonical = (st.take e.len).reverse := by
  obtain ⟨below, rfl⟩ := h.top
  rw [List.take_left' (by simp [len]), List.reverse_reverse]

/-- Settling only forgets the front of the buffer. -/
theorem Tracks.settle {e : ReorgEngine} {st : List BufferedBlock} (out : List Output)
    (h : e.Tracks st) (hw : 0 < e.config.bufferWindow) : (e.settle out).1.Tracks st := by
  obtain ⟨below, rfl⟩ := h.top
  rw [settle_eq]
  constructor
  · refine ⟨(e.canonical.take (e.canonical.length - e.config.bufferWindow)).reverse ++ below, ?_⟩
    rw [← List.append_assoc, ← List.reverse_append, List.take_append_drop]
  · intro hnil
    refine h.fresh ?_
    rw [List.drop_eq_nil_iff] at hnil
    exact List.length_eq_zero_iff.1 (by omega)

/-- The `Undo`s of the orphans, then the `New`, then the ledger. -/
theorem map_event_attachOutputs (e : ReorgEngine) (orphans : List BufferedBlock)
    (d : DecodedBlock) (txInfos : List DecodedTxInfo) :
    (e.attachOutputs orphans d txInfos).map Output.event =
      orphans.reverse.map .pop ++ .push (bufferedBlock e.nextForkId d txInfos) ::
        (observations d orphans).map fun _ => .keep := by
  unfold attachOutputs
  rw [List.map_append, List.map_map, List.map_cons, List.map_map]
  rfl

/-- Observing a fork does not move the stack. -/
theorem idle_observations (d : DecodedBlock) (orphans : List BufferedBlock) :
    ∀ f ∈ (observations d orphans).map fun _ => (Replay.Event.keep : Replay.Event BufferedBlock),
      f.Idle := by
  intro f hf
  obtain ⟨_, -, rfl⟩ := List.mem_map.1 hf
  trivial

/-- **What attaching a block does to the stack**: the orphans come off, the block goes
on top. -/
theorem replay_attachOutputs (e : ReorgEngine) (orphans : List BufferedBlock) (d : DecodedBlock)
    (txInfos : List DecodedTxInfo) (rest : List BufferedBlock) :
    Replay.replay (orphans.reverse ++ rest)
        ((e.attachOutputs orphans d txInfos).map Output.event) =
      bufferedBlock e.nextForkId d txInfos :: rest := by
  rw [map_event_attachOutputs, Replay.replay_append, Replay.replay_map_pop, Replay.replay_cons,
    Replay.replay_of_idle (idle_observations d orphans)]
  rfl

/-- The outputs of a block that attaches fit the stack, and the buffer stays its top. -/
theorem Attaches.replay {e : ReorgEngine} {d : DecodedBlock} {kept orphans : List BufferedBlock}
    (ha : Attaches e d kept orphans) (txInfos : List DecodedTxInfo) {st : List BufferedBlock}
    (h : e.Tracks st) :
    Replay.Sound parentLink st ((e.attachOutputs orphans d txInfos).map Output.event) ∧
      (e.attached kept orphans d txInfos).Tracks
        (Replay.replay st ((e.attachOutputs orphans d txInfos).map Output.event)) := by
  obtain ⟨below, hst⟩ := h.top
  rw [ha.split, List.reverse_append, List.append_assoc] at hst
  constructor
  · rw [map_event_attachOutputs, hst, Replay.sound_append, Replay.sound_cons,
      Replay.replay_map_pop]
    refine ⟨Replay.sound_map_pop _ _, ?_, Replay.sound_of_idle (idle_observations d orphans)⟩
    intro t ht
    rcases ha.cases with ⟨rfl, rfl, hnil⟩ | ⟨init, p, rfl, -, -⟩
    · have hbelow : below = [] := by
        have hst' := h.fresh hnil
        rw [hst] at hst'
        simpa using hst'
      simp [hbelow] at ht
    · rw [List.reverse_append, List.reverse_singleton,
        List.singleton_append, List.cons_append, List.head?_cons, Option.some.injEq] at ht
      exact ht ▸ ha.parent p (by simp)
  · rw [hst, replay_attachOutputs]
    refine ⟨⟨below, by simp [attached]⟩, fun hnil => ?_⟩
    simp [attached] at hnil

/-- **One call and the consumer's stack**: the outputs fit the stack, and the buffer
stays its top. -/
theorem Step.replay {e e' : ReorgEngine} {c : Call} {out : List Output} (hw : e.Wf)
    (hs : Step e c e' out) {st : List BufferedBlock} (h : e.Tracks st) :
    Replay.Sound parentLink st (out.map Output.event) ∧
      e'.Tracks (Replay.replay st (out.map Output.event)) := by
  have hpos : 0 < e.config.bufferWindow := Nat.zero_lt_of_lt hw.window
  have hidle : ∀ (f : ReorgEngine), ∀ x ∈ (f.marks ++ f.resolutions).map Output.event, x.Idle := by
    intro f x hx
    obtain ⟨o, ho, rfl⟩ := List.mem_map.1 hx
    exact f.idle_settled o ho
  cases hs with
  | refused => exact ⟨Replay.sound_nil, h⟩
  | stale => exact ⟨Replay.sound_nil, h⟩
  | attached d txInfos kept orphans ha =>
    obtain ⟨hsound, htracks⟩ := ha.replay txInfos h
    rw [attach_snd, List.map_append, Replay.sound_append, Replay.replay_append,
      Replay.replay_of_idle (hidle _)]
    exact ⟨⟨hsound, Replay.sound_of_idle (hidle _)⟩, htracks.settle _ hpos⟩
  | head s hs =>
    rw [settle_nil_snd, Replay.replay_of_idle (hidle _)]
    exact ⟨Replay.sound_of_idle (hidle _), Tracks.settle [] ⟨h.top, h.fresh⟩ hpos⟩

/-- No call undoes the first block ever accepted. -/
theorem Step.rooted {e e' : ReorgEngine} {c : Call} {out : List Output} (hs : Step e c e' out)
    {st : List BufferedBlock} (h : e.Tracks st) : Replay.Rooted st (out.map Output.event) := by
  have hidle : ∀ (f : ReorgEngine) (st : List BufferedBlock),
      Replay.Rooted st ((f.marks ++ f.resolutions).map Output.event) := by
    intro f st
    refine Replay.rooted_of_idle fun x hx => ?_
    obtain ⟨o, ho, rfl⟩ := List.mem_map.1 hx
    exact f.idle_settled o ho
  cases hs with
  | refused => exact Replay.rooted_nil
  | stale => exact Replay.rooted_nil
  | attached d txInfos kept orphans ha =>
    obtain ⟨below, hst⟩ := h.top
    rw [ha.split, List.reverse_append, List.append_assoc] at hst
    rw [attach_snd, List.map_append, Replay.rooted_append, map_event_attachOutputs,
      Replay.rooted_append, Replay.rooted_cons]
    refine ⟨⟨?_, trivial, Replay.rooted_of_idle (idle_observations d orphans)⟩, hidle _ _⟩
    cases orphans with
    | nil => exact Replay.rooted_nil
    | cons o os =>
      have hkept : kept ≠ [] := fun hnil => List.cons_ne_nil o os (ha.first hnil)
      rw [hst]
      exact Replay.rooted_map_pop _ (by simp [hkept])
  | head s hs =>
    rw [settle_nil_snd]
    exact hidle _ _

/-- Settling accepts nothing. -/
theorem accepted_settled (e : ReorgEngine) : accepted (e.marks ++ e.resolutions) = [] := by
  refine List.filterMap_eq_nil_iff.2 fun o ho => ?_
  have := e.idle_settled o ho
  cases o with
  | new s => exact this.elim
  | _ => rfl

/-- Moving the solidified head accepts no block. -/
theorem Step.accepted_head {e e' : ReorgEngine} {s : ℕ} {out : List Output}
    (hs : Step e (.setSolidifiedHead s) e' out) : Relayer.accepted out = [] := by
  cases hs with
  | stale => rfl
  | head _ hs =>
    rw [settle_nil_snd]
    exact accepted_settled _

/-- A block that attaches is the one block the call emits as `New`. -/
theorem accepted_attach (e : ReorgEngine) (kept orphans : List BufferedBlock) (d : DecodedBlock)
    (txInfos : List DecodedTxInfo) :
    accepted (e.attach kept orphans d txInfos).2 = [bufferedBlock e.nextForkId d txInfos] := by
  have hundo : accepted (orphans.reverse.map (undoOf e.solidifiedHead)) = [] := by
    refine List.filterMap_eq_nil_iff.2 fun o ho => ?_
    obtain ⟨b, -, rfl⟩ := List.mem_map.1 ho
    rfl
  have hobs : accepted ((observations d orphans).map fun o =>
      Output.forkObserved o.observedAtHeight o.keptTip o.orphanedTips) = [] := by
    refine List.filterMap_eq_nil_iff.2 fun o ho => ?_
    obtain ⟨b, -, rfl⟩ := List.mem_map.1 ho
    rfl
  have hnew (b : BufferedBlock) (l : List Output) : accepted (e.newOf b :: l) = b :: accepted l :=
    rfl
  rw [attach_snd, accepted_append, accepted_settled, List.append_nil, attachOutputs,
    accepted_append, hundo, List.nil_append, hnew, hobs]

/-- A call records the header of the block it accepts. -/
theorem Step.accepted {e e' : ReorgEngine} {c : Call} {out : List Output} (hs : Step e c e' out) :
    ∀ b ∈ accepted out, b.Faithful := by
  cases hs with
  | refused => simp [Relayer.accepted]
  | stale => simp [Relayer.accepted]
  | attached d txInfos kept orphans ha =>
    intro b hb
    rw [accepted_attach] at hb
    obtain rfl := List.mem_singleton.1 hb
    exact ⟨rfl, rfl, rfl⟩
  | head s hs =>
    rw [settle_nil_snd, accepted_settled]
    simp

/-- A fresh engine tracks the empty stack. -/
theorem tracks_new {config : ReorgConfig} {e : ReorgEngine}
    (h : ReorgEngine.new config = some e) : e.Tracks [] := by
  obtain rfl := eq_of_new h
  exact ⟨⟨[], rfl⟩, fun _ => rfl⟩

/-- What holds of an engine and of everything it has emitted since it was new. -/
structure Reached (e : ReorgEngine) (outs : List Output) : Prop where
  wf : e.Wf
  sound : Replay.Sound parentLink [] (outs.map Output.event)
  rooted : Replay.Rooted [] (outs.map Output.event)
  tracks : e.Tracks (stackOf outs)
  faithful : ∀ b ∈ accepted outs, b.Faithful

/-- A fresh engine has reached nothing. -/
theorem reached_new {config : ReorgConfig} {e : ReorgEngine}
    (h : ReorgEngine.new config = some e) : e.Reached [] :=
  ⟨wf_new h, Replay.sound_nil, Replay.rooted_nil, tracks_new h, by simp [accepted]⟩

/-- **One call from a reached engine reaches the next one**: the outputs of all calls so far
replay to a stack whose top is the buffer. -/
theorem Reached.step {e e' : ReorgEngine} {outs out : List Output} {c : Call} (h : e.Reached outs)
    (hs : Step e c e' out) : e'.Reached (outs ++ out) := by
  obtain ⟨hsound, htracks⟩ := hs.replay h.wf h.tracks
  refine ⟨hs.wf h.wf, ?_, ?_, ?_, fun b hb => ?_⟩
  · rw [List.map_append, Replay.sound_append]
    exact ⟨h.sound, hsound⟩
  · rw [List.map_append, Replay.rooted_append]
    exact ⟨h.rooted, hs.rooted h.tracks⟩
  · rw [stackOf_append]
    exact htracks
  · rw [accepted_append] at hb
    rcases List.mem_append.1 hb with hb | hb
    · exact h.faithful b hb
    · exact hs.accepted b hb

/-- One call goes on from what was reached. -/
theorem Reached.call {e e' : ReorgEngine} {outs out : List Output} {c : Call} (h : e.Reached outs)
    (hc : e.call c = some (e', out)) : e'.Reached (outs ++ out) :=
  h.step (step_of_call h.wf hc)

/-- **So does a run**, by induction on its calls, each of which starts from the engine the
last one left. -/
theorem reached_run {e e' : ReorgEngine} {hist outs : List Output} {calls : List Call}
    (h : e.Reached hist) (hr : Run.run call e calls = some (e', outs)) :
    e'.Reached (hist ++ outs) :=
  Run.run_invariant (fun _ _ _ _ _ hP hc => hP.call hc) h hr

end ReorgEngine

/-- A run of a fresh engine: `none` when the configuration is refused. -/
def runFresh (config : ReorgConfig) (calls : List Call) : Option (ReorgEngine × List Output) :=
  (ReorgEngine.new config).bind fun e => Run.run ReorgEngine.call e calls

/-- From a fresh engine a run reaches what it emitted. -/
theorem reached_of_runFresh {config : ReorgConfig} {calls : List Call} {e : ReorgEngine}
    {outs : List Output} (h : runFresh config calls = some (e, outs)) : e.Reached outs := by
  obtain ⟨e₀, hnew, hr⟩ := Option.bind_eq_some_iff.1 h
  exact ReorgEngine.reached_run (ReorgEngine.reached_new hnew) hr

/-- A run of a fresh engine never panics. -/
theorem runFresh_total {config : ReorgConfig} (h : config.finalityDepth < config.bufferWindow)
    (calls : List Call) : ∃ e outs, runFresh config calls = some (e, outs) := by
  have hnew : ∃ e, ReorgEngine.new config = some e := by
    unfold ReorgEngine.new
    rw [if_pos h]
    exact ⟨_, rfl⟩
  obtain ⟨e₀, hnew⟩ := hnew
  obtain ⟨e, outs, hr, -⟩ := ReorgEngine.run_call (ReorgEngine.wf_new hnew) calls
  exact ⟨e, outs, by rw [runFresh, hnew]; exact hr⟩

/-- **Consumer replay.**  Whatever a fresh engine is fed, it does not panic; replaying
its outputs, every `Undo` names the block on top of the stack, every `New` pushed on a
non-empty stack is a child of its top, and the buffer, front to back, is the topmost
`len` entries of the stack. -/
theorem runFresh_replay (config : ReorgConfig) (h : config.finalityDepth < config.bufferWindow)
    (calls : List Call) :
    ∃ e outs, runFresh config calls = some (e, outs) ∧
      Replay.Sound parentLink [] (outs.map Output.event) ∧
      e.canonical = ((stackOf outs).take e.len).reverse := by
  obtain ⟨e, outs, hr⟩ := runFresh_total h calls
  have hreached := reached_of_runFresh hr
  exact ⟨e, outs, hr, hreached.sound, hreached.tracks.eq_take⟩

/-- The default configuration is one of them; here the second block is replaced. -/
theorem runFresh_replay_default :
    ReorgConfig.default.finalityDepth < ReorgConfig.default.bufferWindow ∧
      ∃ e outs, runFresh ReorgConfig.default [.accept (synthAt 1 0 0) [], .accept (synthAt 2 0 0) [],
          .setSolidifiedHead 1, .accept (synthAt 2 1 0) []] = some (e, outs) ∧
        Replay.Sound parentLink [] (outs.map Output.event) ∧
        e.canonical = ((stackOf outs).take e.len).reverse :=
  ⟨by decide, runFresh_replay _ (by decide) _⟩

/-! ### The rule of the chain -/

/-- **The chain rule**: a block's id determines its header, and each accepted
non-first block is one higher than its parent. -/
structure ChainRule (outs : List Output) : Prop where
  header : ∀ a ∈ accepted outs, ∀ b ∈ accepted outs, a.blockId = b.blockId →
    a.decoded.header = b.decoded.header
  height : Replay.Sound heightLink [] (outs.map Output.event)

instance (outs : List Output) : Decidable (ChainRule outs) :=
  decidable_of_iff
    ((∀ a ∈ accepted outs, ∀ b ∈ accepted outs, a.blockId = b.blockId →
      a.decoded.header = b.decoded.header) ∧ Replay.Sound heightLink [] (outs.map Output.event))
    ⟨fun h => ⟨h.1, h.2⟩, fun h => ⟨h.header, h.height⟩⟩

/-- The chain rule holds of the beginning of a run. -/
theorem ChainRule.of_append {outs outs' : List Output} (h : ChainRule (outs ++ outs')) :
    ChainRule outs := by
  constructor
  · intro a ha b hb
    exact h.header a (by simp [accepted_append, ha]) b (by simp [accepted_append, hb])
  · have := h.height
    rw [List.map_append, Replay.sound_append] at this
    exact this.1

/-- Heights along the stack are consecutive, top first. -/
theorem ChainRule.isChain_height {outs : List Output} (h : ChainRule outs) :
    (stackOf outs).IsChain heightLink :=
  h.height.isChain List.isChain_nil

/-- Oldest first, each block is one higher than the one before. -/
def Ascending (bs : List BufferedBlock) : Prop := bs.IsChain fun a b => b.height = a.height + 1

/-- Heights that rise step by step rise throughout. -/
theorem Ascending.pairwise {bs : List BufferedBlock} (h : Ascending bs) :
    bs.Pairwise fun a b => a.height < b.height := by
  have : Trans (fun a b : BufferedBlock => a.height < b.height)
      (fun a b : BufferedBlock => a.height < b.height)
      (fun a b : BufferedBlock => a.height < b.height) := ⟨fun hab hbc => Nat.lt_trans hab hbc⟩
  refine List.isChain_iff_pairwise.1 (h.imp fun a b hab => ?_)
  omega

/-- Down the stack the heights fall throughout. -/
theorem pairwise_height_of_isChain {st : List BufferedBlock} (h : st.IsChain heightLink) :
    st.Pairwise fun a b => b.height < a.height := by
  have hasc : Ascending st.reverse := List.isChain_reverse.2 h
  exact List.pairwise_reverse.1 hasc.pairwise

/-- On a stack with consecutive heights, a height determines the entry. -/
theorem eq_of_height_eq {st : List BufferedBlock} (h : st.IsChain heightLink)
    {a b : BufferedBlock} (ha : a ∈ st) (hb : b ∈ st) (hab : a.height = b.height) : a = b := by
  have hnd : (st.map (·.height)).Nodup :=
    List.pairwise_map.2 ((pairwise_height_of_isChain h).imp fun hlt => by omega)
  exact List.inj_on_of_nodup_map hnd ha hb hab

/-- A stack entry that is not the lowest has its parent on the stack. -/
theorem exists_parent_of_lt {st : List BufferedBlock} (hp : st.IsChain parentLink)
    (hh : st.IsChain heightLink) {x b : BufferedBlock} (hx : x ∈ st) (hb : b ∈ st)
    (hlt : b.height < x.height) :
    ∃ t ∈ st, x.parentId = t.blockId ∧ x.height = t.height + 1 := by
  obtain ⟨pre, post, rfl⟩ := List.append_of_mem hx
  have hpw := pairwise_height_of_isChain hh
  cases post with
  | nil =>
    -- `x` would be the bottom, and nothing is lower
    rcases List.mem_append.1 hb with hb | hb
    · have := (List.pairwise_append.1 hpw).2.2 b hb x (List.mem_singleton_self x)
      omega
    · obtain rfl := List.mem_singleton.1 hb
      omega
  | cons t post =>
    exact ⟨t, by simp, (List.isChain_cons_cons.1 hp.right_of_append).1,
      (List.isChain_cons_cons.1 hh.right_of_append).1⟩

namespace ReorgEngine

variable {e : ReorgEngine} {outs : List Output}

/-- The heights of accepted blocks are `u64`. -/
theorem Reached.height_lt (h : e.Reached outs) : ∀ b ∈ accepted outs, b.height < 2 ^ 64 :=
  fun b hb => (h.faithful b hb).height ▸ b.decoded.header.height_lt

/-- The stack is a chain by parents. -/
theorem Reached.isChain_parent (h : e.Reached outs) : (stackOf outs).IsChain parentLink :=
  h.sound.isChain List.isChain_nil

/-- Under the chain rule an id determines height and parent among the accepted blocks. -/
theorem Reached.eq_of_blockId (h : e.Reached outs) (hc : ChainRule outs) {a b : BufferedBlock}
    (ha : a ∈ accepted outs) (hb : b ∈ accepted outs) (hab : a.blockId = b.blockId) :
    a.height = b.height ∧ a.parentId = b.parentId := by
  have heq := hc.header a ha b hb hab
  have hfa := h.faithful a ha
  have hfb := h.faithful b hb
  rw [hfa.height, hfb.height, hfa.parentId, hfb.parentId, heq]
  exact ⟨rfl, rfl⟩

/-- **Parents by height**: of two stack entries the higher is the child of the lower
exactly when it is one higher. -/
theorem Reached.parentId_iff_height (h : e.Reached outs) (hc : ChainRule outs)
    {x b : BufferedBlock} (hx : x ∈ stackOf outs) (hb : b ∈ stackOf outs)
    (hlt : b.height < x.height) : x.parentId = b.blockId ↔ x.height = b.height + 1 := by
  obtain ⟨t, ht, hpt, hht⟩ := exists_parent_of_lt h.isChain_parent hc.isChain_height hx hb hlt
  constructor
  · intro hxb
    have := (h.eq_of_blockId hc (mem_accepted_of_mem_stackOf ht)
      (mem_accepted_of_mem_stackOf hb) (hpt.symm.trans hxb)).1
    omega
  · intro hxb
    have htb := eq_of_height_eq hc.isChain_height ht hb (by omega)
    rw [hpt, htb]

end ReorgEngine

end Relayer
end Lightcycle
