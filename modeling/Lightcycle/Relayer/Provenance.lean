/-
# What the engine emits was given to it

Of a block the engine changes nothing but the fork id it adds, and the head of an envelope
is one it was told.  So what holds of every block and every head that is handed to the engine
holds of the blocks and heads of all that it emits: `P` and `H` are any such properties, and
`Step.given` is that a call keeps them.
-/

import Lightcycle.Relayer.Complete

namespace Lightcycle
namespace Relayer

variable (P : BufferedBlock → Prop) (H : ℕ → Prop)

/-- The block of the message has `P`, the head of its envelope `H`. -/
structure StreamableBlock.Given (s : StreamableBlock) : Prop where
  block : P s.block
  head : ∀ n, s.finality.solidifiedHead = some n → H n

/-- The message of an output is given, if it has one. -/
inductive Output.Given : Output → Prop
  | new {s : StreamableBlock} (h : s.Given P H) : Given (.new s)
  | undo {s : StreamableBlock} (h : s.Given P H) : Given (.undo s)
  | irreversible {s : StreamableBlock} (h : s.Given P H) : Given (.irreversible s)
  | forkObserved (height : ℕ) (kept : BlockId) (orphaned : List BlockId) :
    Given (.forkObserved height kept orphaned)
  | forkResolved (height head : ℕ) (tip : BlockId) (orphaned : List BlockId) :
    Given (.forkResolved height head tip orphaned)

/-- The call hands over a block with `P`, whatever fork id it will have, or a head with `H`. -/
def Call.Gives : Call → Prop
  | .accept d txInfos => ∀ forkId, P (ReorgEngine.bufferedBlock forkId d txInfos)
  | .setSolidifiedHead s => H s

variable {P H}

/-- An announcement was given when its output was. -/
theorem Output.Given.announced {s : StreamableBlock} (h : Output.Given P H (.irreversible s)) :
    s.Given P H := by
  cases h with
  | irreversible h => exact h

/-- So was a new block. -/
theorem Output.Given.started {s : StreamableBlock} (h : Output.Given P H (.new s)) :
    s.Given P H := by
  cases h with
  | new h => exact h

namespace ReorgEngine

variable (P H) in
/-- Every buffered block has `P`, the solidified head `H`. -/
structure Given (e : ReorgEngine) : Prop where
  block : ∀ b ∈ e.canonical, P b
  head : ∀ n, e.solidifiedHead = some n → H n

variable {e e' : ReorgEngine} {c : Call} {out : List Output}

/-- A fresh engine holds nothing that was not given. -/
theorem given_new {config : ReorgConfig} (h : ReorgEngine.new config = some e) : e.Given P H := by
  obtain rfl := eq_of_new h
  exact ⟨fun _ hb => (List.not_mem_nil hb).elim, fun _ hn => by cases hn⟩

/-- Settling keeps what was given. -/
theorem Given.settle (h : e.Given P H) (out : List Output) : (e.settle out).1.Given P H := by
  rw [settle_eq]
  exact ⟨fun b hb => h.block b (List.mem_of_mem_drop hb), h.head⟩

/-- What it emits was given. -/
theorem Given.settled (h : e.Given P H) : ∀ o ∈ e.marks ++ e.resolutions, o.Given P H := by
  refine e.forall_settled (fun b hb => .irreversible ⟨?_, ?_⟩) fun _ _ => .forkResolved ..
  · exact h.block b (e.crossed_sublist.subset hb)
  · -- a block is crossed only under a head
    obtain ⟨s, hs, -⟩ := headReaches_of_mem_crossed hb
    intro n hn
    obtain rfl := Option.some.inj hn
    exact h.head _ (by rw [hs]; rfl)

/-- A given block attaches to given ones. -/
theorem Given.attached {d : DecodedBlock} {txInfos : List DecodedTxInfo}
    {kept orphans : List BufferedBlock} (h : e.Given P H)
    (hc : Call.Gives P H (.accept d txInfos)) (ha : Attaches e d kept orphans) :
    (e.attached kept orphans d txInfos).Given P H := by
  refine ⟨fun b hb => ?_, h.head⟩
  rcases List.mem_append.1 hb with hb | hb
  · exact h.block b (by rw [ha.split]; exact List.mem_append_left _ hb)
  · obtain rfl := List.mem_singleton.1 hb
    exact hc _

/-- What is emitted for it was given. -/
theorem Given.attachOutputs {d : DecodedBlock} {txInfos : List DecodedTxInfo}
    {kept orphans : List BufferedBlock} (h : e.Given P H)
    (hc : Call.Gives P H (.accept d txInfos)) (ha : Attaches e d kept orphans) :
    ∀ o ∈ e.attachOutputs orphans d txInfos, o.Given P H :=
  e.forall_attachOutputs
    (fun b hb => .undo ⟨h.block b (by rw [ha.split]; exact List.mem_append_right _ hb), h.head⟩)
    (.new ⟨hc _, h.head⟩) fun _ _ => .forkObserved ..

/-- **A call emits nothing that was not given**: every output carries a block that the
engine held or was called with, and a head of one of its calls. -/
theorem Step.given (hs : Step e c e' out) (h : e.Given P H) (hc : c.Gives P H) :
    e'.Given P H ∧ ∀ o ∈ out, o.Given P H := by
  cases hs with
  | refused => exact ⟨h, fun _ ho => (List.not_mem_nil ho).elim⟩
  | stale => exact ⟨h, fun _ ho => (List.not_mem_nil ho).elim⟩
  | attached d txInfos kept orphans ha =>
    have hat := h.attached hc ha
    refine ⟨hat.settle _, ?_⟩
    rw [attach_snd]
    exact List.forall_mem_append.2 ⟨h.attachOutputs hc ha, hat.settled⟩
  | head s hs =>
    have hhead : (e.withHead s).Given P H := by
      refine ⟨h.block, fun n hn => ?_⟩
      obtain rfl := Option.some.inj hn
      exact hc
    refine ⟨hhead.settle _, ?_⟩
    rw [settle_nil_snd]
    exact hhead.settled

end ReorgEngine
end Relayer
end Lightcycle
