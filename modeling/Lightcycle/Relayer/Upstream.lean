/-
# The upstream node and the finality it reports

The node the relayer polls holds a tree of blocks, a head and a solidified block, an
ancestor of the head that only ever moves to its descendants.  Each tick reads the
solidified block's height, and later the head block; between the two the node may
have moved.  Finality crosses the RPC as a bare height, so the engine names the blocks
of its own buffer up to that height, whichever branch they are on.

The branch is the right one exactly while the engine's tip and the solidified block
are on one branch (`Comparable`): `ReadsOnBranch` asks this of every successful
solidified read that reaches a block not yet announced, and under it everything the
relayer emits as `Irreversible` is an ancestor of the solidified block
(`irreversible_ancestor`).  A head block needs no condition: it descends from the
solidified block.
-/

import Lightcycle.Relayer.Service
import Lightcycle.Relayer.Announce

namespace Lightcycle
namespace Relayer

/-! ### Trees of blocks -/

/-- All the blocks there ever are, by id; a block is one higher than its parent. -/
structure BlockTree where
  block : BlockId → Option DecodedBlock
  blockId : ∀ i b, block i = some b → b.header.blockId = i
  height : ∀ i b p, block i = some b → block b.header.parentId = some p →
    b.header.height = p.header.height + 1

namespace BlockTree

variable (t : BlockTree)

/-- The tree of a list of blocks. -/
def ofList (bs : List DecodedBlock) (h : ∀ b ∈ bs, ∀ p ∈ bs,
    b.header.parentId = p.header.blockId → b.header.height = p.header.height + 1) : BlockTree where
  block i := bs.find? fun b => decide (b.header.blockId = i)
  blockId i b hb := by simpa using List.find?_some hb
  height i b p hb hp := by
    refine h b (List.mem_of_find?_eq_some hb) p (List.mem_of_find?_eq_some hp) ?_
    have hid : p.header.blockId = b.header.parentId := by simpa using List.find?_some hp
    exact hid.symm

/-- The parent of the block `k` is the block `j`. -/
def ParentOf (k j : BlockId) : Prop :=
  ∃ b p, t.block k = some b ∧ b.header.parentId = j ∧ t.block j = some p

/-- Ancestor or self. -/
def Ancestor (a c : BlockId) : Prop := Relation.ReflTransGen t.ParentOf c a

/-- On one branch. -/
def Comparable (a b : BlockId) : Prop := t.Ancestor a b ∨ t.Ancestor b a

variable {t} {a b c : BlockId}

/-- An ancestor of an ancestor is one. -/
theorem Ancestor.trans (hab : t.Ancestor a b) (hbc : t.Ancestor b c) : t.Ancestor a c :=
  Relation.ReflTransGen.trans hbc hab

/-- A block has one parent at most. -/
theorem parentOf_rightUnique : Relator.RightUnique t.ParentOf := by
  rintro k j j' ⟨b, -, hb, rfl, -⟩ ⟨b', -, hb', rfl, -⟩
  rw [hb] at hb'
  rw [Option.some.inj hb']

/-- Two ancestors of one block are on one branch. -/
theorem Ancestor.comparable (ha : t.Ancestor a c) (hb : t.Ancestor b c) : t.Comparable a b :=
  (Relation.ReflTransGen.total_of_right_unique parentOf_rightUnique ha hb).symm

/-- An ancestor is lower, unless it is the block itself. -/
theorem Ancestor.eq_or_lt (h : t.Ancestor a c) {A C : DecodedBlock} (hA : t.block a = some A)
    (hC : t.block c = some C) : a = c ∨ A.header.height < C.header.height := by
  induction h using Relation.ReflTransGen.head_induction_on generalizing C with
  | refl => exact Or.inl rfl
  | @head k j hkj hja ih =>
    obtain ⟨b, p, hb, rfl, hp⟩ := hkj
    rw [hC] at hb
    obtain rfl := Option.some.inj hb
    have hstep := t.height k C p hC hp
    rcases ih hp with rfl | hlt
    · rw [hA] at hp
      obtain rfl := Option.some.inj hp
      exact Or.inr (by omega)
    · exact Or.inr (by omega)

/-- An ancestor of the same height is the block itself. -/
theorem Ancestor.eq_of_height (h : t.Ancestor a c) {A C : DecodedBlock} (hA : t.block a = some A)
    (hC : t.block c = some C) (hh : C.header.height ≤ A.header.height) : a = c := by
  rcases h.eq_or_lt hA hC with heq | hlt
  · exact heq
  · omega

end BlockTree

/-! ### The node and the relayer -/

/-- What the upstream node shows: its head and its solidified block. -/
structure Upstream (t : BlockTree) where
  head : DecodedBlock
  solid : DecodedBlock
  mem_head : t.block head.header.blockId = some head
  mem_solid : t.block solid.header.blockId = some solid
  solid_anc : t.Ancestor solid.header.blockId head.header.blockId

/-- The node, the service polling it, and whether the service has read the solidified
height of the tick it is in. -/
structure Node (t : BlockTree) where
  upstream : Upstream t
  svc : RelayerService
  midTick : Bool

/-- The node moves; the service reads the solidified height; the service reads the head.
A read that fails carries its error. -/
inductive NodeAction (t : BlockTree) where
  | move (u : Upstream t)
  | readSolid (error : Option String)
  | readHead (srSet : Option SrSet) (txInfos : Except String (List DecodedTxInfo))

namespace Node

variable {t : BlockTree} (recover : List.Vector UInt8 32 → List UInt8 → UInt8 → Option Address)

/-- What the loop of `run` does with the result of a half tick: it returns when the output
channel is closed. -/
def ended (r : RelayerService × List Output × Except ServiceError Unit) : RelayerService :=
  match r.2.2 with
  | .error .outputChannelClosed => { r.1 with exited := true }
  | _ => r.1

/-- One step and what the service emits in it, each output with the id of the block that is
solidified upstream at that moment. -/
def step (n : Node t) : NodeAction t → Option (Node t × List (Output × BlockId))
  | .move u => some ({ n with upstream := u }, [])
  | .readSolid error =>
    if n.midTick || n.svc.exited then none
    else
      let r := n.svc.observeSolidified
        (error.elim (.ok (some n.upstream.solid.header.height)) .error)
      some ({ n with svc := ended r, midTick := true },
        r.2.1.map (·, n.upstream.solid.header.blockId))
  | .readHead srSet txInfos =>
    if !n.midTick || n.svc.exited then none
    else
      (n.svc.observeHead recover srSet (txInfos.map fun i => ⟨n.upstream.head, i⟩)).map fun r =>
        ({ n with svc := ended r, midTick := false },
          r.2.1.map (·, n.upstream.solid.header.blockId))

/-- The node moves its solidified block only to descendants. -/
def Lawful (n : Node t) : NodeAction t → Prop
  | .move u => t.Ancestor n.upstream.solid.header.blockId u.solid.header.blockId
  | .readSolid _ => True
  | .readHead _ _ => True

/-- A solidified height that reaches a block not yet announced is read while the engine's
tip and the solidified block are on one branch. -/
def ReadsOnBranch (n : Node t) : NodeAction t → Prop
  | .readSolid none => ∀ x ∈ n.svc.engine.canonical,
      x.height ≤ n.upstream.solid.header.height →
      (∀ l, n.svc.engine.lastIrreversibleHeight = some l → l < x.height) →
      ∀ tip, n.svc.engine.canonical.getLast? = some tip →
        t.Comparable tip.blockId n.upstream.solid.header.blockId
  | .readSolid (some _) => True
  | .readHead _ _ => True
  | .move _ => True

end Node

/-! ### The engine's blocks in the tree -/

namespace ReorgEngine

variable {t : BlockTree} {e e' : ReorgEngine} {hist out : List Output}

/-- Blocks of the tree obey the chain rule. -/
theorem Reached.chainRule (h : e.Reached hist)
    (hin : ∀ b ∈ accepted hist, t.block b.blockId = some b.decoded) : ChainRule hist := by
  have hmem : ∀ b, .push b ∈ hist.map Output.event → b ∈ accepted hist := by
    intro b hb
    obtain ⟨o, ho, hob⟩ := List.mem_map.1 hb
    refine List.mem_filterMap.2 ⟨o, ho, ?_⟩
    cases o with
    | new s =>
      obtain rfl := Replay.Event.push.inj hob
      rfl
    | _ => cases hob
  constructor
  · intro a ha b hb hab
    have h₁ := hin a ha
    rw [hab, hin b hb] at h₁
    rw [Option.some.inj h₁]
  · refine h.sound.imp fun b p hb hp hlink => ?_
    have hfb := h.faithful b (hmem b hb)
    have hfp := h.faithful p (hmem p hp)
    have hpar : b.decoded.header.parentId = p.blockId := hfb.parentId ▸ hlink
    have := t.height _ _ _ (hin b (hmem b hb)) (hpar ▸ hin p (hmem p hp))
    rw [heightLink, hfb.height, hfp.height, this]

/-- A buffered block was accepted. -/
theorem Reached.mem_accepted (h : e.Reached hist) {b : BufferedBlock} (hb : b ∈ e.canonical) :
    b ∈ accepted hist := by
  obtain ⟨below, hbelow⟩ := h.tracks.top
  refine mem_accepted_of_mem_stackOf ?_
  rw [hbelow]
  exact List.mem_append_left _ (List.mem_reverse.2 hb)

/-- Every block of a linked list of tree blocks is an ancestor of the last one. -/
theorem ancestor_of_linked {bs : List BufferedBlock}
    (hlinked : bs.IsChain fun a b => b.parentId = a.blockId)
    (hin : ∀ b ∈ bs, t.block b.blockId = some b.decoded ∧ b.Faithful) {b tip : BufferedBlock}
    (hb : b ∈ bs) (htip : bs.getLast? = some tip) : t.Ancestor b.blockId tip.blockId := by
  induction bs using List.reverseRecOn generalizing tip with
  | nil => cases hb
  | append_singleton bs c ih =>
    rw [List.getLast?_concat, Option.some.injEq] at htip
    subst htip
    rcases List.mem_append.1 hb with hb | hb
    · cases hp : bs.getLast? with
      | none =>
        rw [List.getLast?_eq_none_iff.1 hp] at hb
        cases hb
      | some p =>
        have hpb := ih hlinked.left_of_append (fun x hx => hin x (List.mem_append_left _ hx)) hb hp
        obtain ⟨hc, hfc⟩ := hin c (by simp)
        obtain ⟨hpt, -⟩ := hin p (List.mem_append_left _ (List.mem_of_getLast? hp))
        have hcp : c.parentId = p.blockId :=
          (List.isChain_append.1 hlinked).2.2 p hp c rfl
        refine Relation.ReflTransGen.head ⟨c.decoded, p.decoded, hc, ?_, hpt⟩ hpb
        rw [← hfc.parentId, hcp]
    · rw [List.mem_singleton.1 hb]
      exact Relation.ReflTransGen.refl

/-- What `accept` names as irreversible is the block it accepted: the rest of the buffer
had been named. -/
theorem Attaches.crossed_eq_new {d : DecodedBlock} {kept orphans : List BufferedBlock}
    (ha : Attaches e d kept orphans) (txInfos : List DecodedTxInfo) (hcaught : e.Caught)
    {x : BufferedBlock} (hx : x ∈ (e.attached kept orphans d txInfos).crossed) :
    x = bufferedBlock e.nextForkId d txInfos ∧
      ∃ s, e.solidifiedHead = some s ∧ x.height ≤ s := by
  cases hs : e.solidifiedHead with
  | none =>
    rw [crossed_eq_nil (show (e.attached kept orphans d txInfos).solidifiedHead = none from hs)]
      at hx
    cases hx
  | some s =>
    rw [crossed_eq (show (e.attached kept orphans d txInfos).solidifiedHead = some s from hs)] at hx
    have hreach := (crossing_sublist ..).subset hx
    have hle := mem_reach_le hreach
    refine ⟨?_, s, rfl, hle⟩
    rcases List.mem_append.1 ((List.takeWhile_sublist _).subset hreach) with hxk | hxn
    · have hcov := hcaught s hs x (ha.split ▸ List.mem_append_left _ hxk) hle
      exact absurd hcov (not_covers_of_mem_crossing hx)
    · exact List.mem_singleton.1 hxn

end ReorgEngine

namespace Node

variable {t : BlockTree} {recover : List.Vector UInt8 32 → List UInt8 → UInt8 → Option Address}
  {n n' : Node t} {a : NodeAction t} {hist : List Output} {outs : List (Output × BlockId)}

/-- What holds of the node and the service between steps: the engine holds blocks of the
tree, and its solidified height is that of an ancestor of the solidified block. -/
structure Sane (n : Node t) (hist : List Output) : Prop where
  announced : n.svc.engine.Announced hist
  inTree : ∀ b ∈ accepted hist, t.block b.blockId = some b.decoded
  solid : ∀ s, n.svc.engine.solidifiedHead = some s → ∃ x X, t.block x = some X ∧
    X.header.height = s ∧ t.Ancestor x n.upstream.solid.header.blockId

/-- Every `Irreversible` is an ancestor of the block solidified when it was emitted. -/
def Good (t : BlockTree) (outs : List (Output × BlockId)) : Prop :=
  ∀ o ∈ outs, ∀ b, o.1.irreversibleBlock = some b → t.Ancestor b.blockId o.2

/-- What is sent is good when all that was emitted is. -/
theorem good_map {sent out : List Output} {x : BlockId} (hp : sent <+: out)
    (h : ∀ b ∈ irreversibles out, t.Ancestor b.blockId x) : Good t (sent.map (·, x)) := by
  intro o ho b hb
  obtain ⟨o', ho', rfl⟩ := List.mem_map.1 ho
  exact h b (List.mem_filterMap.2 ⟨o', hp.subset ho', hb⟩)

/-- A closed channel ends the service and not its engine. -/
theorem engine_ended (r : RelayerService × List Output × Except ServiceError Unit) :
    (ended r).engine = r.1.engine := by
  unfold ended
  split
  · rfl
  · rfl

/-- **What a solidified read names**: under the condition, ancestors of the solidified
block. -/
theorem Sane.crossed_withHead (h : n.Sane hist) (hb : n.ReadsOnBranch (.readSolid none))
    {x : BufferedBlock}
    (hx : x ∈ (n.svc.engine.withHead n.upstream.solid.header.height).crossed) :
    t.Ancestor x.blockId n.upstream.solid.header.blockId := by
  have hreached := h.announced.reached
  have hin : ∀ b ∈ n.svc.engine.canonical, t.block b.blockId = some b.decoded ∧ b.Faithful :=
    fun b hb => ⟨h.inTree b (hreached.mem_accepted hb), hreached.faithful b (hreached.mem_accepted hb)⟩
  have hcov := ReorgEngine.not_covers_of_mem_crossed hx
  rw [ReorgEngine.crossed_eq (show (n.svc.engine.withHead _).solidifiedHead = some _ from rfl)] at hx
  have hreach := (crossing_sublist ..).subset hx
  have hxc : x ∈ n.svc.engine.canonical := (List.takeWhile_sublist _).subset hreach
  have hle := mem_reach_le hreach
  obtain ⟨hxt, hfx⟩ := hin x hxc
  obtain ⟨tip, htip⟩ : ∃ f, n.svc.engine.canonical.getLast? = some f := by
    cases hc : n.svc.engine.canonical.getLast? with
    | none => rw [List.getLast?_eq_none_iff.1 hc] at hxc; cases hxc
    | some f => exact ⟨f, rfl⟩
  have hxtip := ReorgEngine.ancestor_of_linked hreached.wf.linked hin hxc htip
  have hnew : ∀ l, n.svc.engine.lastIrreversibleHeight = some l → l < x.height := by
    intro l hl
    by_contra hlt
    exact hcov ⟨l, hl, by omega⟩
  rcases hb x hxc hle hnew tip htip with hcomp | hcomp
  · exact hxtip.trans hcomp
  · -- both are ancestors of the tip, and `x` is not the higher
    rcases hxtip.comparable hcomp with hax | hax
    · exact hax
    · have heq := hax.eq_of_height n.upstream.mem_solid hxt (by rw [← hfx.height]; exact hle)
      rw [heq]
      exact Relation.ReflTransGen.refl

/-- Accepting a block announces the blocks crossed. -/
theorem irreversibles_attach (e : ReorgEngine) (kept orphans : List BufferedBlock)
    (d : DecodedBlock) (txInfos : List DecodedTxInfo) :
    irreversibles (e.attach kept orphans d txInfos).2 =
      (e.attached kept orphans d txInfos).crossed := by
  rw [ReorgEngine.attach_snd, irreversibles_append, ReorgEngine.irreversibles_attachOutputs,
    ReorgEngine.irreversibles_settled, List.nil_append]

/-- A step of the engine on blocks of the tree keeps the node sane. -/
theorem Sane.engine_step {c : Call} {out : List Output} (h : n.Sane hist)
    (hs : ReorgEngine.Step n.svc.engine c n'.svc.engine out)
    (hin : ∀ b ∈ accepted out, t.block b.blockId = some b.decoded)
    (hsolid : ∀ s, n'.svc.engine.solidifiedHead = some s → ∃ x X, t.block x = some X ∧
      X.header.height = s ∧ t.Ancestor x n'.upstream.solid.header.blockId) :
    n'.Sane (hist ++ out) := by
  have hin' : ∀ b ∈ accepted (hist ++ out), t.block b.blockId = some b.decoded := by
    intro b hb
    rw [accepted_append] at hb
    rcases List.mem_append.1 hb with hb | hb
    · exact h.inTree b hb
    · exact hin b hb
  have hc := (h.announced.reached.step hs).chainRule hin'
  exact ⟨(h.announced.step hs hc).1, hin', hsolid⟩

/-- A step that leaves the engine alone and moves the solidified block to a descendant. -/
theorem Sane.mono (h : n.Sane hist) (he : n'.svc.engine = n.svc.engine)
    (hu : t.Ancestor n.upstream.solid.header.blockId n'.upstream.solid.header.blockId) :
    n'.Sane hist := by
  refine ⟨he ▸ h.announced, h.inTree, fun s hs => ?_⟩
  rw [he] at hs
  obtain ⟨x, X, hX, hh, hx⟩ := h.solid s hs
  exact ⟨x, X, hX, hh, hx.trans hu⟩

/-- **A solidified read keeps the node sane** and names only ancestors of the solidified
block. -/
theorem Sane.setSolidifiedHead {out : List Output} (h : n.Sane hist) (n' : Node t)
    (hb : n.ReadsOnBranch (.readSolid none)) (hu : n'.upstream = n.upstream)
    (hs : ReorgEngine.Step n.svc.engine (.setSolidifiedHead n.upstream.solid.header.height)
      n'.svc.engine out) :
    n'.Sane (hist ++ out) ∧
      ∀ b ∈ irreversibles out, t.Ancestor b.blockId n.upstream.solid.header.blockId := by
  generalize he : n'.svc.engine = e' at hs
  cases hs with
  | stale s p hp hle =>
    rw [List.append_nil]
    refine ⟨h.mono he ?_, fun b hb => by cases hb⟩
    rw [hu]
    exact Relation.ReflTransGen.refl
  | head s hlt =>
    have hstep := he.symm ▸ ReorgEngine.Step.head _ hlt
    refine ⟨h.engine_step hstep ?_ ?_, fun b hbi => ?_⟩
    · rw [ReorgEngine.settle_nil_snd, ReorgEngine.accepted_settled]
      exact fun b hb => by cases hb
    · intro s hs
      rw [he, ReorgEngine.settle_eq] at hs
      obtain rfl := Option.some.inj hs
      exact ⟨_, _, n.upstream.mem_solid, rfl, hu ▸ Relation.ReflTransGen.refl⟩
    · rw [ReorgEngine.settle_nil_snd, ReorgEngine.irreversibles_settled] at hbi
      exact h.crossed_withHead hb hbi

/-- **A head block keeps the node sane**, and if it is named it is an ancestor of the
solidified block: it descends from that block, and is not above it. -/
theorem Sane.accept {out : List Output} {txInfos : List DecodedTxInfo} (h : n.Sane hist)
    (n' : Node t) (hu : n'.upstream = n.upstream)
    (hs : ReorgEngine.Step n.svc.engine (.accept n.upstream.head txInfos) n'.svc.engine out) :
    n'.Sane (hist ++ out) ∧
      ∀ b ∈ irreversibles out, t.Ancestor b.blockId n.upstream.solid.header.blockId := by
  generalize he : n'.svc.engine = e' at hs
  cases hs with
  | refused d txInfos =>
    rw [List.append_nil]
    refine ⟨h.mono he ?_, fun b hb => by cases hb⟩
    rw [hu]
    exact Relation.ReflTransGen.refl
  | attached d txInfos kept orphans ha =>
    have hstep := he.symm ▸ ReorgEngine.Step.attached _ txInfos kept orphans ha
    refine ⟨h.engine_step hstep ?_ ?_, fun b hb => ?_⟩
    · intro b hb
      rw [ReorgEngine.accepted_attach, List.mem_singleton] at hb
      rw [hb]
      exact n.upstream.mem_head
    · intro s hs
      rw [he, ReorgEngine.attach, ReorgEngine.settle_eq] at hs
      rw [hu]
      exact h.solid s hs
    · rw [irreversibles_attach] at hb
      obtain ⟨rfl, s, hsol, hle⟩ := ha.crossed_eq_new txInfos h.announced.caught hb
      obtain ⟨x, X, hX, hh, hx⟩ := h.solid s hsol
      have heq := (hx.trans n.upstream.solid_anc).eq_of_height hX n.upstream.mem_head
        (by rw [hh]; exact hle)
      rw [heq] at hx
      exact hx

/-- **One step of the node or the service.** The node's solidified block only descends, and
the engine is called with a block of the tree or a height of the branch. -/
theorem Sane.step (h : n.Sane hist) (hl : n.Lawful a) (hb : n.ReadsOnBranch a)
    (hs : n.step recover a = some (n', outs)) : (∃ hist', n'.Sane hist') ∧ Good t outs := by
  have hnil : Good t [] := fun o ho => by cases ho
  cases a with
  | move u =>
    obtain ⟨rfl, rfl⟩ := Prod.mk.inj (Option.some.inj hs)
    exact ⟨⟨hist, h.mono rfl hl⟩, hnil⟩
  | readSolid error =>
    simp only [Node.step] at hs
    split_ifs at hs
    obtain ⟨rfl, rfl⟩ := Prod.mk.inj (Option.some.inj hs)
    cases error with
    | some e => exact ⟨⟨hist, h.mono rfl Relation.ReflTransGen.refl⟩, hnil⟩
    | none =>
      have hcall : n.svc.engine.call (.setSolidifiedHead n.upstream.solid.header.height) =
          some (n.svc.engine.setSolidifiedHead n.upstream.solid.header.height) := rfl
      have hstep := ReorgEngine.step_of_call h.announced.reached.wf hcall
      have hgood := h.setSolidifiedHead { n with
        svc := ended (n.svc.observeSolidified (.ok (some n.upstream.solid.header.height)))
        midTick := true } hb rfl
        (by rw [engine_ended, RelayerService.observeSolidified, RelayerService.forward_engine]
            exact hstep)
      exact ⟨⟨_, hgood.1⟩, good_map (RelayerService.forward_isPrefix _ _) hgood.2⟩
  | readHead srSet txInfos =>
    simp only [Node.step] at hs
    split_ifs at hs
    obtain ⟨r, hr, hres⟩ := Option.map_eq_some_iff.1 hs
    obtain ⟨rfl, rfl⟩ := Prod.mk.inj hres
    rcases RelayerService.observeHead_cases hr with ⟨heng, hout⟩ | ⟨f, out, hf, hcall, hp⟩
    · refine ⟨⟨hist, h.mono ?_ Relation.ReflTransGen.refl⟩, ?_⟩
      · rw [engine_ended, heng]
      · rw [hout]
        exact hnil
    · obtain ⟨i, -, rfl⟩ : ∃ i, txInfos = .ok i ∧ (⟨n.upstream.head, i⟩ : FetchedBlock) = f := by
        cases txInfos with
        | error e => cases hf
        | ok i => exact ⟨i, rfl, Except.ok.inj hf⟩
      have hstep := ReorgEngine.step_of_call h.announced.reached.wf hcall
      have hgood := h.accept { n with svc := ended r, midTick := false } rfl
        (by rw [engine_ended]; exact hstep)
      exact ⟨⟨_, hgood.1⟩, good_map hp hgood.2⟩

/-- A fresh service over any node is sane. -/
theorem sane_new {config : ReorgConfig} {engine : ReorgEngine} (u : Upstream t)
    (policy : VerifyPolicy) (cache : Option (Store.BlockCache BufferedBlock))
    (headTx : Option (Option ℕ)) (tx : Option ℕ) (h : ReorgEngine.new config = some engine) :
    (⟨u, RelayerService.new engine policy cache headTx tx, false⟩ : Node t).Sane [] := by
  refine ⟨ReorgEngine.announced_new h, fun b hb => (List.not_mem_nil hb).elim, fun s hs => ?_⟩
  obtain rfl := ReorgEngine.eq_of_new h
  cases hs

end Node

/-- **Only the chain's own solidified blocks are finalized**, while every solidified height
that reaches an unannounced block is read with the engine's tip and the solidified block on
one branch: for every upstream history and every polling schedule, what the relayer emits
as `Irreversible` is then an ancestor of the upstream's solidified block at that moment. -/
theorem irreversible_ancestor (t : BlockTree)
    (recover : List.Vector UInt8 32 → List UInt8 → UInt8 → Option Address) (config : ReorgConfig)
    (engine : ReorgEngine) (policy : VerifyPolicy) (cache : Option (Store.BlockCache BufferedBlock))
    (headTx : Option (Option ℕ)) (tx : Option ℕ) (u : Upstream t) (acts : List (NodeAction t))
    (n : Node t) (outs : List (Output × BlockId)) (hnew : ReorgEngine.new config = some engine)
    (hrun : Run.run (Node.step recover)
      ⟨u, RelayerService.new engine policy cache headTx tx, false⟩ acts = some (n, outs))
    (hlawful : Run.Along Node.Lawful (Node.step recover)
      ⟨u, RelayerService.new engine policy cache headTx tx, false⟩ acts)
    (hbranch : Run.Along Node.ReadsOnBranch (Node.step recover)
      ⟨u, RelayerService.new engine policy cache headTx tx, false⟩ acts) :
    ∀ o ∈ outs, ∀ b, o.1.irreversibleBlock = some b → t.Ancestor b.blockId o.2 := by
  have hstep : ∀ (n : Node t) (outs : List (Output × BlockId)) (a : NodeAction t) (n' : Node t)
      (out : List (Output × BlockId)), n.Lawful a ∧ n.ReadsOnBranch a →
      ((∃ hist, n.Sane hist) ∧ Node.Good t outs) → n.step recover a = some (n', out) →
      (∃ hist, n'.Sane hist) ∧ Node.Good t (outs ++ out) := by
    rintro n outs a n' out ⟨hl, hb⟩ ⟨⟨hist, h⟩, hg⟩ hs
    obtain ⟨h', hg'⟩ := h.step hl hb hs
    refine ⟨h', fun o ho => ?_⟩
    rcases List.mem_append.1 ho with ho | ho
    · exact hg o ho
    · exact hg' o ho
  have hinit : (∃ hist, (⟨u, RelayerService.new engine policy cache headTx tx, false⟩ :
      Node t).Sane hist) ∧ Node.Good t [] :=
    ⟨⟨[], Node.sane_new u policy cache headTx tx hnew⟩, fun o ho => by cases ho⟩
  exact (Run.run_invariant_of_along hstep (hlawful.and hbranch) hinit hrun).2

/-- Block 1 and two branches over it. -/
def twoBranches : BlockTree :=
  .ofList [synthAt 1 0 0, synthAt 2 0 0, synthAt 2 1 0, synthAt 3 1 1] (by decide)

/-- In the tree of the example parents are ancestors. -/
theorem twoBranches_ancestor {p c : DecodedBlock}
    (hp : twoBranches.block p.header.blockId = some p)
    (hc : twoBranches.block c.header.blockId = some c)
    (h : c.header.parentId = p.header.blockId) :
    twoBranches.Ancestor p.header.blockId c.header.blockId :=
  .single ⟨c, p, hc, h, hp⟩

/-- The node at a head whose parent is solidified. -/
def atChild (p c : DecodedBlock) (hp : twoBranches.block p.header.blockId = some p)
    (hc : twoBranches.block c.header.blockId = some c)
    (h : c.header.parentId = p.header.blockId) : Upstream twoBranches :=
  ⟨c, p, hc, hp, twoBranches_ancestor hp hc h⟩

/-- The relayer is at block 2 of one branch when the node switches to the other branch and
solidifies its block 2: it finalizes its own. -/
theorem finalizes_other_branch : ¬ ∀ (t : BlockTree)
    (recover : List.Vector UInt8 32 → List UInt8 → UInt8 → Option Address) (config : ReorgConfig)
    (engine : ReorgEngine) (policy : VerifyPolicy) (cache : Option (Store.BlockCache BufferedBlock))
    (headTx : Option (Option ℕ)) (tx : Option ℕ) (u : Upstream t) (acts : List (NodeAction t))
    (n : Node t) (outs : List (Output × BlockId)), ReorgEngine.new config = some engine →
    Run.run (Node.step recover) ⟨u, RelayerService.new engine policy cache headTx tx, false⟩ acts =
      some (n, outs) →
    Run.Along Node.Lawful (Node.step recover)
      ⟨u, RelayerService.new engine policy cache headTx tx, false⟩ acts →
    ∀ o ∈ outs, ∀ b, o.1.irreversibleBlock = some b → t.Ancestor b.blockId o.2 := by
  intro h
  have hgood := h twoBranches (fun _ _ _ => none) ⟨4, 1⟩ _ .disabled none none none
    (atChild (synthAt 1 0 0) (synthAt 2 0 0) rfl rfl rfl)
    [.readSolid none, .readHead none (.ok []),
      .move (atChild (synthAt 2 1 0) (synthAt 3 1 1) rfl rfl rfl), .readSolid none]
    _ _ rfl rfl
    (Run.along_cons rfl trivial (Run.along_cons rfl trivial (Run.along_cons rfl
      (twoBranches_ancestor rfl rfl rfl) (Run.along_cons rfl trivial trivial))))
  -- the output names block 2 of the first branch, and block 2 of the second is solidified
  have hanc : twoBranches.Ancestor (synthId 2 0) (synthId 2 1) :=
    hgood _ (List.mem_of_getLast? rfl) _ rfl
  have heq := hanc.eq_of_height (A := synthAt 2 0 0) (C := synthAt 2 1 0) rfl rfl le_rfl
  revert heq
  decide

/-- The hypotheses hold of a node that solidifies block 2 with the relayer on its branch. -/
theorem irreversible_ancestor_oneBranch :
    ∃ engine n outs, ReorgEngine.new ⟨4, 1⟩ = some engine ∧
      Run.run (Node.step fun _ _ _ => none)
      ⟨atChild (synthAt 1 0 0) (synthAt 2 1 0) rfl rfl rfl,
        RelayerService.new engine .disabled none none none, false⟩
      [.readSolid none, .readHead none (.ok []),
        .move (atChild (synthAt 2 1 0) (synthAt 3 1 1) rfl rfl rfl), .readSolid none] =
        some (n, outs) ∧
      ∀ o ∈ outs, ∀ b, o.1.irreversibleBlock = some b → twoBranches.Ancestor b.blockId o.2 := by
  refine ⟨_, _, _, rfl, rfl, irreversible_ancestor twoBranches (fun _ _ _ => none) ⟨4, 1⟩ _
    .disabled none none none (atChild (synthAt 1 0 0) (synthAt 2 1 0) rfl rfl rfl)
    [.readSolid none, .readHead none (.ok []),
      .move (atChild (synthAt 2 1 0) (synthAt 3 1 1) rfl rfl rfl), .readSolid none] _ _
    rfl rfl ?_ ?_⟩
  · exact Run.along_cons rfl trivial (Run.along_cons rfl trivial (Run.along_cons rfl
      (twoBranches_ancestor rfl rfl rfl) (Run.along_cons rfl trivial trivial)))
  · refine Run.along_cons rfl (fun x hx => by cases hx) (Run.along_cons rfl trivial
      (Run.along_cons rfl trivial (Run.along_cons rfl ?_ trivial)))
    intro x _ _ _ tip htip
    obtain rfl := Option.some.inj htip
    exact Or.inl Relation.ReflTransGen.refl

end Relayer
end Lightcycle
