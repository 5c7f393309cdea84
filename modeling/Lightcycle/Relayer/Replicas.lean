/-
# Replicas agree on what is final

Several relayers may follow one upstream node, each with its own polling schedule, its own
failures and its own restarts: `Cluster` is the node and the replicas, in any order of
steps.  They exchange no messages.  `crates/lightcycle-store` makes the chain's finality the
only thing two replicas may agree by, so what one of them emits as `Irreversible` has to fit
what the others emit, and what it emitted itself before a restart.

It does, under the condition of `Lightcycle.Relayer.Upstream` on every read
(`ReadsOnBranch`): whatever any replica finalized is an ancestor of the block solidified
now, as it was and as the node went on (`Sane.step`).  So all of it lies on one branch
(`replicas_agree`): one block for a height, and each the parent of the next.
-/

import Lightcycle.Relayer.Upstream

namespace Lightcycle
namespace Relayer

/-! ### One branch has one block at a height -/

namespace BlockTree

variable {t : BlockTree} {a b c : BlockId} {A B : DecodedBlock}

/-- An ancestor one below is the parent. -/
theorem Ancestor.parentId_of_height (h : t.Ancestor a b) (hA : t.block a = some A)
    (hB : t.block b = some B) (hh : B.header.height = A.header.height + 1) :
    B.header.parentId = a := by
  rcases Relation.ReflTransGen.cases_head h with rfl | ⟨p, ⟨B', P, hB', rfl, hP⟩, hpa⟩
  · rw [hA] at hB
    obtain rfl := Option.some.inj hB
    omega
  · rw [hB] at hB'
    obtain rfl := Option.some.inj hB'
    have hheight := t.height b B P hB hP
    have hap : t.Ancestor a B.header.parentId := hpa
    exact (hap.eq_of_height hA hP (by omega)).symm

/-- Of two blocks on one branch the lower is the ancestor. -/
theorem Comparable.ancestor (h : t.Comparable a b) (hA : t.block a = some A)
    (hB : t.block b = some B) (hle : A.header.height ≤ B.header.height) : t.Ancestor a b := by
  rcases h with h | h
  · exact h
  · rw [h.eq_of_height hB hA hle]
    exact Relation.ReflTransGen.refl

end BlockTree

/-! ### What one replica finalizes -/

namespace Node

variable {t : BlockTree} {recover : List.Vector UInt8 32 → List UInt8 → UInt8 → Option Address}
  {n n' : Node t} {a : NodeAction t} {hist : List Output} {outs : List (Output × BlockId)}

/-- The record is that of a block of the tree. -/
structure Recorded (t : BlockTree) (b : BufferedBlock) : Prop where
  inTree : t.block b.blockId = some b.decoded
  faithful : b.Faithful

/-- The engine of a sane node holds blocks of the tree. -/
theorem Sane.recorded (h : n.Sane hist) {b : BufferedBlock} (hb : b ∈ n.svc.engine.canonical) :
    Recorded t b :=
  have hacc := h.announced.reached.mem_accepted hb
  ⟨h.inTree b hacc, h.announced.reached.faithful b hacc⟩

/-- What a solidified read names is in the buffer. -/
theorem Sane.recorded_of_setSolidifiedHead (h : n.Sane hist) {s : ℕ} {e' : ReorgEngine}
    {out : List Output} (hcall : n.svc.engine.call (.setSolidifiedHead s) = some (e', out))
    {b : BufferedBlock} (hb : b ∈ irreversibles out) : Recorded t b := by
  cases ReorgEngine.step_of_call h.announced.reached.wf hcall with
  | stale => cases hb
  | head s hlt =>
    rw [ReorgEngine.settle_nil_snd, ReorgEngine.irreversibles_settled] at hb
    have hmem : b ∈ (n.svc.engine.withHead s).canonical :=
      (ReorgEngine.crossed_sublist _).subset hb
    exact h.recorded hmem

/-- What accepting the head names is in the buffer, or the head itself. -/
theorem Sane.recorded_of_accept (h : n.Sane hist) {txInfos : List DecodedTxInfo}
    {e' : ReorgEngine} {out : List Output}
    (hcall : n.svc.engine.call (.accept n.upstream.head txInfos) = some (e', out))
    {b : BufferedBlock} (hb : b ∈ irreversibles out) : Recorded t b := by
  cases ReorgEngine.step_of_call h.announced.reached.wf hcall with
  | refused => cases hb
  | attached d txInfos kept orphans ha =>
    rw [irreversibles_attach] at hb
    have hmem := (ReorgEngine.crossed_sublist _).subset hb
    rcases List.mem_append.1 hmem with hmem | hmem
    · exact h.recorded (ha.split ▸ List.mem_append_left _ hmem)
    · rw [List.mem_singleton.1 hmem]
      exact ⟨n.upstream.mem_head, rfl, rfl, rfl⟩

/-- **What one step finalizes are blocks of the tree**: the tree has each under its id, as
the replica decoded it. -/
theorem Sane.recorded_of_step (h : n.Sane hist) (hs : n.step recover a = some (n', outs)) :
    ∀ o ∈ outs, ∀ b, o.1.irreversibleBlock = some b → Recorded t b := by
  have hsent : ∀ {sent out : List Output} {x : BlockId}, sent <+: out →
      (∀ b ∈ irreversibles out, Recorded t b) → ∀ o ∈ sent.map (·, x), ∀ b,
        o.1.irreversibleBlock = some b → Recorded t b := by
    intro sent out x hp hall o ho b hb
    obtain ⟨o', ho', rfl⟩ := List.mem_map.1 ho
    exact hall b (List.mem_filterMap.2 ⟨o', hp.subset ho', hb⟩)
  cases a with
  | move u =>
    obtain ⟨-, rfl⟩ := Prod.mk.inj (Option.some.inj hs)
    exact fun o ho => (List.not_mem_nil ho).elim
  | readSolid error =>
    simp only [Node.step] at hs
    split_ifs at hs
    obtain ⟨-, rfl⟩ := Prod.mk.inj (Option.some.inj hs)
    cases error with
    | some e => exact fun o ho => (List.not_mem_nil ho).elim
    | none =>
      exact hsent (RelayerService.forward_isPrefix _ _)
        fun b hb => h.recorded_of_setSolidifiedHead rfl hb
  | readHead srSet txInfos =>
    simp only [Node.step] at hs
    split_ifs at hs
    obtain ⟨r, hr, hres⟩ := Option.map_eq_some_iff.1 hs
    obtain ⟨-, rfl⟩ := Prod.mk.inj hres
    rcases RelayerService.observeHead_cases hr with ⟨-, hout⟩ | ⟨f, out, hf, hcall, hp⟩
    · rw [hout]
      exact fun o ho => (List.not_mem_nil ho).elim
    · obtain ⟨i, -, rfl⟩ : ∃ i, txInfos = .ok i ∧ (⟨n.upstream.head, i⟩ : FetchedBlock) = f := by
        cases txInfos with
        | error e => cases hf
        | ok i => exact ⟨i, rfl, Except.ok.inj hf⟩
      exact hsent hp fun b hb => h.recorded_of_accept hcall hb

/-- A read is on the branch when the tip is. -/
theorem readsOnBranch_of_tip (tip : BufferedBlock)
    (htip : n.svc.engine.canonical.getLast? = some tip)
    (hc : t.Comparable tip.blockId n.upstream.solid.header.blockId) :
    n.ReadsOnBranch (.readSolid none) := by
  intro x _ _ _ tip' htip'
  rw [htip] at htip'
  rw [← Option.some.inj htip']
  exact hc

end Node

/-! ### The node and its replicas -/

/-- A relayer and whether it has read the solidified height of the tick it is in. -/
structure Replica where
  svc : RelayerService
  midTick : Bool

/-- One upstream node and the relayers that poll it. -/
structure Cluster (t : BlockTree) (ι : Type*) where
  upstream : Upstream t
  replica : ι → Replica

/-- A read of one replica; a read that fails carries its error. -/
inductive Read where
  | solid (error : Option String)
  | head (srSet : Option SrSet) (txInfos : Except String (List DecodedTxInfo))

/-- The step of the replica alone. -/
def Read.action (t : BlockTree) : Read → NodeAction t
  | .solid error => .readSolid error
  | .head srSet txInfos => .readHead srSet txInfos

/-- The node moves; a replica reads; a replica is started again, with nothing in memory. -/
inductive ClusterAction (t : BlockTree) (ι : Type*) where
  | move (u : Upstream t)
  | read (i : ι) (r : Read)
  | restart (i : ι) (config : ReorgConfig) (policy : VerifyPolicy)
      (cache : Option (Store.BlockCache BufferedBlock)) (headTx : Option (Option ℕ))
      (tx : Option ℕ)

/-- A replica as it starts, `none` when the configuration is refused. -/
def Replica.fresh (config : ReorgConfig) (policy : VerifyPolicy)
    (cache : Option (Store.BlockCache BufferedBlock)) (headTx : Option (Option ℕ))
    (tx : Option ℕ) : Option Replica :=
  (ReorgEngine.new config).map fun engine =>
    ⟨RelayerService.new engine policy cache headTx tx, false⟩

namespace Cluster

variable {t : BlockTree} {ι : Type*} [DecidableEq ι]
  (recover : List.Vector UInt8 32 → List UInt8 → UInt8 → Option Address)

/-- The node as the replica `i` sees it. -/
def node (c : Cluster t ι) (i : ι) : Node t :=
  ⟨c.upstream, (c.replica i).svc, (c.replica i).midTick⟩

/-- The cluster with the replica `i` as it is in the node `n`. -/
def update (c : Cluster t ι) (i : ι) (r : Replica) : Cluster t ι :=
  { c with replica := Function.update c.replica i r }

/-- One step and what is emitted in it: by which replica, and under which solidified block. -/
def step (c : Cluster t ι) : ClusterAction t ι →
    Option (Cluster t ι × List (ι × Output × BlockId))
  | .move u => some ({ c with upstream := u }, [])
  | .read i r =>
    ((c.node i).step recover (r.action t)).map fun x =>
      (c.update i ⟨x.1.svc, x.1.midTick⟩, x.2.map (i, ·))
  | .restart i config policy cache headTx tx =>
    (Replica.fresh config policy cache headTx tx).map fun r => (c.update i r, [])

/-- The node moves its solidified block only to descendants. -/
def Lawful (c : Cluster t ι) : ClusterAction t ι → Prop
  | .move u => t.Ancestor c.upstream.solid.header.blockId u.solid.header.blockId
  | .read _ _ => True
  | .restart .. => True

/-- A replica reads a solidified height that reaches a block it has not announced while its
tip and the solidified block are on one branch. -/
def ReadsOnBranch (c : Cluster t ι) : ClusterAction t ι → Prop
  | .move _ => True
  | .read i r => (c.node i).ReadsOnBranch (r.action t)
  | .restart .. => True

/-- Every replica is as it starts. -/
def Fresh (c : Cluster t ι) : Prop :=
  ∀ i, ∃ config policy cache headTx tx,
    Replica.fresh config policy cache headTx tx = some (c.replica i)

variable {recover} {c c' : Cluster t ι} {a : ClusterAction t ι}
  {outs out : List (ι × Output × BlockId)}

omit [DecidableEq ι] in
/-- A replica that starts over a node is sane. -/
theorem node_fresh {config : ReorgConfig} {policy : VerifyPolicy}
    {cache : Option (Store.BlockCache BufferedBlock)} {headTx : Option (Option ℕ)}
    {tx : Option ℕ} {r : Replica} (u : Upstream t)
    (h : Replica.fresh config policy cache headTx tx = some r) :
    (⟨u, r.svc, r.midTick⟩ : Node t).Sane [] := by
  obtain ⟨engine, hnew, rfl⟩ := Option.map_eq_some_iff.1 h
  exact Node.sane_new u policy cache headTx tx hnew

/-- The replica that moved sees its new state. -/
theorem node_update_self (c : Cluster t ι) (i : ι) (r : Replica) :
    (c.update i r).node i = ⟨c.upstream, r.svc, r.midTick⟩ := by
  simp only [node, update, Function.update_self]

/-- The others see what they saw. -/
theorem node_update_of_ne (c : Cluster t ι) {i j : ι} (h : j ≠ i) (r : Replica) :
    (c.update i r).node j = c.node j := by
  simp only [node, update, Function.update_of_ne h]

/-- A block finalized is a block of the tree and an ancestor of the block solidified now. -/
def Final (c : Cluster t ι) (outs : List (ι × Output × BlockId)) : Prop :=
  ∀ o ∈ outs, ∀ b, o.2.1.irreversibleBlock = some b →
    Node.Recorded t b ∧ t.Ancestor b.blockId c.upstream.solid.header.blockId

/-- What holds of the cluster between steps. -/
structure Sane (c : Cluster t ι) (outs : List (ι × Output × BlockId)) : Prop where
  replica : ∀ i, ∃ hist, (c.node i).Sane hist
  final : c.Final outs

omit [DecidableEq ι] in
/-- A fresh cluster is sane. -/
theorem sane_of_fresh (h : c.Fresh) : c.Sane [] where
  replica i := by
    obtain ⟨config, policy, cache, headTx, tx, hi⟩ := h i
    exact ⟨[], node_fresh c.upstream hi⟩
  final _ ho := (List.not_mem_nil ho).elim

/-- A replica put in the place of another, as sane as that one. -/
theorem Sane.update (h : c.Sane outs) (i : ι) {r : Replica} (hist : List Output)
    (hr : (⟨c.upstream, r.svc, r.midTick⟩ : Node t).Sane hist) :
    ∀ j, ∃ hist, ((c.update i r).node j).Sane hist := by
  intro j
  by_cases hj : j = i
  · rw [hj, node_update_self]
    exact ⟨hist, hr⟩
  · rw [node_update_of_ne c hj]
    exact h.replica j

omit [DecidableEq ι] in
/-- A read leaves the node where it is. -/
theorem upstream_of_read {i : ι} {r : Read} {n : Node t} {sent : List (Output × BlockId)}
    (hs : (c.node i).step recover (r.action t) = some (n, sent)) : n.upstream = c.upstream := by
  cases r with
  | solid error =>
    simp only [Read.action, Node.step] at hs
    split_ifs at hs
    obtain ⟨rfl, -⟩ := Prod.mk.inj (Option.some.inj hs)
    rfl
  | head srSet txInfos =>
    simp only [Read.action, Node.step] at hs
    split_ifs at hs
    obtain ⟨x, -, hx⟩ := Option.map_eq_some_iff.1 hs
    obtain ⟨rfl, -⟩ := Prod.mk.inj hx
    rfl

omit [DecidableEq ι] in
/-- What a read emits, it emits under the block solidified now. -/
theorem solid_of_read {i : ι} {r : Read} {n : Node t} {sent : List (Output × BlockId)}
    (hs : (c.node i).step recover (r.action t) = some (n, sent)) :
    ∀ o ∈ sent, o.2 = c.upstream.solid.header.blockId := by
  intro o ho
  cases r with
  | solid error =>
    simp only [Read.action, Node.step] at hs
    split_ifs at hs
    obtain ⟨-, rfl⟩ := Prod.mk.inj (Option.some.inj hs)
    obtain ⟨_, -, rfl⟩ := List.mem_map.1 ho
    rfl
  | head srSet txInfos =>
    simp only [Read.action, Node.step] at hs
    split_ifs at hs
    obtain ⟨x, -, hx⟩ := Option.map_eq_some_iff.1 hs
    obtain ⟨-, rfl⟩ := Prod.mk.inj hx
    obtain ⟨_, -, rfl⟩ := List.mem_map.1 ho
    rfl

/-- **One step of the node or of a replica.** When the node moves its solidified block only
descends, and the other replicas are not touched. -/
theorem Sane.step (h : c.Sane outs) (hl : c.Lawful a) (hb : c.ReadsOnBranch a)
    (hs : c.step recover a = some (c', out)) : c'.Sane (outs ++ out) := by
  cases a with
  | move u =>
    obtain ⟨rfl, rfl⟩ := Prod.mk.inj (Option.some.inj hs)
    rw [List.append_nil]
    refine ⟨fun i => ?_, fun o ho b hob => ?_⟩
    · obtain ⟨hist, hi⟩ := h.replica i
      exact ⟨hist, hi.mono rfl hl⟩
    · obtain ⟨hrec, hanc⟩ := h.final o ho b hob
      exact ⟨hrec, hanc.trans hl⟩
  | read i r =>
    obtain ⟨⟨n, sent⟩, hn, hres⟩ := Option.map_eq_some_iff.1 hs
    obtain ⟨rfl, rfl⟩ := Prod.mk.inj hres
    obtain ⟨hist, hi⟩ := h.replica i
    have hlawful : (c.node i).Lawful (r.action t) := by cases r <;> trivial
    obtain ⟨⟨hist', hi'⟩, hgood⟩ := hi.step hlawful hb hn
    have hup := upstream_of_read hn
    refine ⟨h.update i hist' ?_, fun o ho b hob => ?_⟩
    · rw [← hup]
      exact hi'
    · rcases List.mem_append.1 ho with ho | ho
      · exact h.final o ho b hob
      · obtain ⟨o', ho', rfl⟩ := List.mem_map.1 ho
        have hanc := hgood o' ho' b hob
        rw [solid_of_read hn o' ho'] at hanc
        exact ⟨hi.recorded_of_step hn o' ho' b hob, hanc⟩
  | restart i config policy cache headTx tx =>
    obtain ⟨r, hr, hres⟩ := Option.map_eq_some_iff.1 hs
    obtain ⟨rfl, rfl⟩ := Prod.mk.inj hres
    rw [List.append_nil]
    exact ⟨h.update i [] (node_fresh c.upstream hr), h.final⟩

/-- **Every run of the cluster**, as long as the reads are on the branch, keeps all replicas
sane and records only finalized ancestors. -/
theorem Sane.run {acts : List (ClusterAction t ι)} (h : c.Sane outs)
    (hrun : Run.run (Cluster.step recover) c acts = some (c', out))
    (hlawful : Run.Along Cluster.Lawful (Cluster.step recover) c acts)
    (hbranch : Run.Along Cluster.ReadsOnBranch (Cluster.step recover) c acts) :
    c'.Sane (outs ++ out) :=
  Run.run_invariant_of_along (fun _ _ _ _ _ hC hP hs => hP.step hC.1 hC.2 hs)
    (hlawful.and hbranch) h hrun

end Cluster

/-- **Replicas agree on what is final.**  Any number of relayers follow one upstream node, in
any order of the node's moves, of their reads and of their restarts, each read on its branch:
then any two blocks finalized, by whichever replicas and however far apart, are on one branch.
At one height they are the same block, and at two successive heights the lower is the parent of
the higher. -/
theorem replicas_agree (t : BlockTree) (ι : Type) [DecidableEq ι]
    (recover : List.Vector UInt8 32 → List UInt8 → UInt8 → Option Address) (c₀ c : Cluster t ι)
    (acts : List (ClusterAction t ι)) (outs : List (ι × Output × BlockId)) (hfresh : c₀.Fresh)
    (hrun : Run.run (Cluster.step recover) c₀ acts = some (c, outs))
    (hlawful : Run.Along Cluster.Lawful (Cluster.step recover) c₀ acts)
    (hbranch : Run.Along Cluster.ReadsOnBranch (Cluster.step recover) c₀ acts) :
    ∀ o ∈ outs, ∀ o' ∈ outs, ∀ b b', o.2.1.irreversibleBlock = some b →
      o'.2.1.irreversibleBlock = some b' →
      t.Comparable b.blockId b'.blockId ∧
        (b'.height = b.height → b'.blockId = b.blockId ∧ b'.decoded = b.decoded) ∧
        (b'.height = b.height + 1 → b'.parentId = b.blockId) := by
  intro o ho o' ho' b b' hb hb'
  have hsane : c.Sane outs := (Cluster.sane_of_fresh hfresh).run hrun hlawful hbranch
  obtain ⟨hrec, hanc⟩ := hsane.final o ho b hb
  obtain ⟨hrec', hanc'⟩ := hsane.final o' ho' b' hb'
  have hcomp : t.Comparable b.blockId b'.blockId := hanc.comparable hanc'
  have hH := hrec.faithful.height
  have hH' := hrec'.faithful.height
  refine ⟨hcomp, fun heq => ?_, fun hsucc => ?_⟩
  · have hab := hcomp.ancestor hrec.inTree hrec'.inTree (by omega)
    have hid := hab.eq_of_height hrec.inTree hrec'.inTree (by omega)
    refine ⟨hid.symm, ?_⟩
    have htree := hrec.inTree
    rw [hid, hrec'.inTree] at htree
    exact Option.some.inj htree
  · have hab := hcomp.ancestor hrec.inTree hrec'.inTree (by omega)
    rw [hrec'.faithful.parentId]
    exact hab.parentId_of_height hrec.inTree hrec'.inTree (by omega)

/-- Two replicas, each at its start, of a node at block 2 of one branch. -/
def twoReplicas : Cluster twoBranches Bool where
  upstream := atChild (synthAt 1 0 0) (synthAt 2 1 0) rfl rfl rfl
  replica _ := ⟨RelayerService.new ⟨[], ∅, ⟨4, 1⟩, none, none, [], 0⟩ .disabled none none none, false⟩

/-- Its record in the engine of either. -/
def secondBlock : BufferedBlock := ReorgEngine.bufferedBlock 0 (synthAt 2 1 0) []

/-- Both read block 2, which the node then solidifies; one announces it, and is started
again, and the other announces it. -/
def bothFinalize : List (ClusterAction twoBranches Bool) :=
  [.read false (.solid none), .read false (.head none (.ok [])), .read true (.solid none),
    .read true (.head none (.ok [])), .move (atChild (synthAt 2 1 0) (synthAt 3 1 1) rfl rfl rfl),
    .read false (.solid none), .restart false ⟨4, 1⟩ .disabled none none none,
    .read true (.solid none)]

/-- Two replicas of one node both finalize a block, and it is the same. -/
theorem replicas_agree_bothFinalize :
    ∃ c outs b b', Run.run (Cluster.step fun _ _ _ => none) twoReplicas bothFinalize =
        some (c, outs) ∧
      (∃ x, (false, .irreversible b, x) ∈ outs) ∧ (∃ x, (true, .irreversible b', x) ∈ outs) ∧
      b'.block.blockId = b.block.blockId ∧ b'.block.decoded = b.block.decoded := by
  have hlawful : Run.Along Cluster.Lawful (Cluster.step fun _ _ _ => none) twoReplicas
      bothFinalize :=
    Run.along_cons rfl trivial <| Run.along_cons rfl trivial <| Run.along_cons rfl trivial <|
    Run.along_cons rfl trivial <| Run.along_cons rfl (twoBranches_ancestor rfl rfl rfl) <|
    Run.along_cons rfl trivial <| Run.along_cons rfl trivial <| Run.along_cons rfl trivial trivial
  have hfirst : ∀ i, (twoReplicas.node i).ReadsOnBranch (.readSolid none) :=
    fun _ x hx => (List.not_mem_nil hx).elim
  have hbranch : Run.Along Cluster.ReadsOnBranch (Cluster.step fun _ _ _ => none) twoReplicas
      bothFinalize := by
    have hsolid : twoBranches.Comparable (synthId 2 1) (synthId 2 1) :=
      Or.inl Relation.ReflTransGen.refl
    exact Run.along_cons rfl (hfirst false) <| Run.along_cons rfl trivial <|
      Run.along_cons rfl (hfirst true) <| Run.along_cons rfl trivial <|
      Run.along_cons rfl trivial <|
      Run.along_cons rfl (Node.readsOnBranch_of_tip secondBlock rfl hsolid) <|
      Run.along_cons rfl trivial <|
      Run.along_cons rfl (Node.readsOnBranch_of_tip secondBlock rfl hsolid) trivial
  obtain ⟨c, outs, b, b', x, x', hrun, hb, hb', hh⟩ : ∃ c outs b b' x x',
      Run.run (Cluster.step fun _ _ _ => none) twoReplicas bothFinalize = some (c, outs) ∧
      (false, .irreversible b, x) ∈ outs ∧ (true, .irreversible b', x') ∈ outs ∧
      b'.block.height = b.block.height :=
    ⟨_, _, _, _, _, _, rfl, List.mem_of_getElem? (i := 2) rfl, List.mem_of_getElem? (i := 3) rfl, rfl⟩
  have hagree := replicas_agree twoBranches Bool (fun _ _ _ => none) twoReplicas c bothFinalize outs
    (fun _ => ⟨⟨4, 1⟩, .disabled, none, none, none, rfl⟩) hrun hlawful hbranch _ hb _ hb' _ _ rfl rfl
  exact ⟨c, outs, b, b', hrun, ⟨x, hb⟩, ⟨x', hb'⟩, hagree.2.1 hh⟩

end Relayer
end Lightcycle
