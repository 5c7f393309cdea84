/-
# The cache as a window of the chain

Feeding every output to `feed_cache`, in order and from an empty cache, keeps in the
cache the top of the consumer's stack: a `New` goes on top and may push the lowest
block out, an `Undo` takes the top off.  How many entries are held (`held`) depends on
the order of the outputs, since what was evicted does not come back.

`Traced` is what the outputs of an engine under the chain rule satisfy at every
moment, also in the middle of a call: it holds of every prefix of the outputs.
-/

import Lightcycle.Relayer.Service

namespace Lightcycle
namespace Relayer

open Store

/-! ### Outputs up to any moment -/

/-- The outputs of an engine under the chain rule, up to any moment. -/
structure Traced (outs : List Output) : Prop where
  parent : Replay.Sound parentLink [] (outs.map Output.event)
  height : Replay.Sound heightLink [] (outs.map Output.event)
  rooted : Replay.Rooted [] (outs.map Output.event)
  blockId : ∀ a ∈ accepted outs, ∀ b ∈ accepted outs, a.blockId = b.blockId →
    a.height = b.height ∧ a.parentId = b.parentId
  height_lt : ∀ b ∈ accepted outs, b.height < 2 ^ 64

/-- Under the chain rule the outputs of an engine are traced. -/
theorem ReorgEngine.Reached.traced {e : ReorgEngine} {outs : List Output} (h : e.Reached outs)
    (hc : ChainRule outs) : Traced outs where
  parent := h.sound
  height := hc.height
  rooted := h.rooted
  blockId _ ha _ hb hab := h.eq_of_blockId hc ha hb hab
  height_lt := h.height_lt

namespace Traced

variable {outs outs' : List Output}

/-- So are the first of them. -/
theorem of_append (h : Traced (outs ++ outs')) : Traced outs := by
  have hmem := accepted_subset (List.prefix_append outs outs')
  have hp := h.parent
  have hh := h.height
  have hr := h.rooted
  rw [List.map_append] at hp hh hr
  exact ⟨(Replay.sound_append.1 hp).1, (Replay.sound_append.1 hh).1, (Replay.rooted_append.1 hr).1,
    fun a ha b hb => h.blockId a (hmem a ha) b (hmem b hb), fun b hb => h.height_lt b (hmem b hb)⟩

/-- So are those up to any moment. -/
theorem of_isPrefix (h : Traced outs') (hp : outs <+: outs') : Traced outs := by
  obtain ⟨rest, rfl⟩ := hp
  exact h.of_append

/-- The stack is a chain by parents. -/
theorem isChain_parent (h : Traced outs) : (stackOf outs).IsChain parentLink :=
  h.parent.isChain List.isChain_nil

/-- It is one by heights. -/
theorem isChain_height (h : Traced outs) : (stackOf outs).IsChain heightLink :=
  h.height.isChain List.isChain_nil

/-- One more output is applied to the stack. -/
theorem stackOf_concat (outs : List Output) (o : Output) :
    stackOf (outs ++ [o]) = Replay.apply (stackOf outs) o.event := by
  rw [stackOf_append]
  rfl

/-- A `New` accepts its block. -/
theorem mem_accepted_concat (outs : List Output) (s : StreamableBlock) :
    s.block ∈ accepted (outs ++ [.new s]) := by
  rw [accepted_append]
  exact List.mem_append_right _ (List.mem_singleton_self _)

/-- A `New` is above everything on the stack. -/
theorem height_lt_of_new {s : StreamableBlock} (h : Traced (outs ++ [.new s])) {b : BufferedBlock}
    (hb : b ∈ stackOf outs) : b.height < s.block.height := by
  have hpw := pairwise_height_of_isChain h.isChain_height
  rw [stackOf_concat] at hpw
  exact (List.pairwise_cons.1 hpw).1 b hb

/-- A `New` has an id that is not on the stack. -/
theorem blockId_ne_of_new {s : StreamableBlock} (h : Traced (outs ++ [.new s])) {b : BufferedBlock}
    (hb : b ∈ stackOf outs) : b.blockId ≠ s.block.blockId := by
  intro hid
  have hacc : b ∈ accepted (outs ++ [.new s]) := by
    rw [accepted_append]
    exact List.mem_append_left _ (mem_accepted_of_mem_stackOf hb)
  have hlt := h.height_lt_of_new hb
  have := (h.blockId b hacc s.block (mem_accepted_concat outs s) hid).1
  omega

/-- An `Undo` names the top. -/
theorem head?_of_undo {s : StreamableBlock} (h : Traced (outs ++ [.undo s])) :
    (stackOf outs).head? = some s.block := by
  have hp := h.parent
  rw [List.map_append, Replay.sound_append] at hp
  exact (Replay.sound_cons.1 hp.2).1

end Traced

/-! ### The window -/

/-- How many entries the cache holds: one more on `New`, up to the capacity, one less on
`Undo`. -/
def heldStep (capacity : ℕ) (k : ℕ) : Output → ℕ
  | .new _ => min (k + 1) capacity
  | .undo _ => k - 1
  | .irreversible _ => k
  | .forkObserved .. => k
  | .forkResolved .. => k

/-- The number of entries held after the outputs. -/
def held (capacity : ℕ) (outs : List Output) : ℕ := outs.foldl (heldStep capacity) 0

/-- The cache after the outputs. -/
def cacheOf (capacity : ℕ) (outs : List Output) : BlockCache BufferedBlock :=
  outs.foldl feedCache ⟨.empty, ∅, capacity⟩

/-- The entry of a block. -/
def entryOf (b : BufferedBlock) : ℕ × BlockId × BufferedBlock := (b.height, b.blockId, b)

/-- The entries of the cache, lowest first: the top of the stack. -/
def windowOf (capacity : ℕ) (outs : List Output) : List (ℕ × BlockId × BufferedBlock) :=
  ((stackOf outs).take (held capacity outs)).reverse.map entryOf

/-- One more output is counted. -/
theorem held_concat (capacity : ℕ) (outs : List Output) (o : Output) :
    held capacity (outs ++ [o]) = heldStep capacity (held capacity outs) o := by
  rw [held, List.foldl_append]
  rfl

/-- One more output is fed to the cache. -/
theorem cacheOf_concat (capacity : ℕ) (outs : List Output) (o : Output) :
    cacheOf capacity (outs ++ [o]) = feedCache (cacheOf capacity outs) o := by
  rw [cacheOf, List.foldl_append]
  rfl

/-- Feeding keeps the capacity. -/
theorem capacity_cacheOf (capacity : ℕ) (outs : List Output) :
    (cacheOf capacity outs).capacity = capacity := by
  induction outs using List.reverseRecOn with
  | nil => rfl
  | append_singleton outs o ih =>
    rw [cacheOf_concat]
    cases o with
    | new s => exact ih
    | undo s => exact BlockCache.capacity_removeById.trans ih
    | _ => exact ih

/-- What is held is on the stack. -/
theorem Traced.held_le (capacity : ℕ) {outs : List Output} (h : Traced outs) :
    held capacity outs ≤ (stackOf outs).length := by
  induction outs using List.reverseRecOn with
  | nil => exact le_rfl
  | append_singleton outs o ih =>
    have := ih h.of_append
    rw [held_concat, Traced.stackOf_concat]
    cases o with
    | new s =>
      have : (Replay.apply (stackOf outs) (Output.new s).event).length =
          (stackOf outs).length + 1 := rfl
      simp only [heldStep]
      omega
    | undo s =>
      have : (Replay.apply (stackOf outs) (Output.undo s).event).length =
          (stackOf outs).length - 1 := List.length_tail
      simp only [heldStep]
      omega
    | _ => exact this

/-- To drop the lowest entries is to take the top of the stack. -/
theorem drop_map_reverse {l : List BufferedBlock} (n : ℕ) :
    (l.reverse.map entryOf).drop n = (l.take (l.length - n)).reverse.map entryOf := by
  rw [← List.map_drop, List.drop_reverse]

/-- **The cache is a window of the chain**: after any number of outputs it holds the top of
the stack, and its index agrees. -/
theorem Traced.cacheOf_eq {outs : List Output} (h : Traced outs) (capacity : ℕ) :
    (cacheOf capacity outs).byHeight.entries = windowOf capacity outs ∧
      BlockCache.Indexed (cacheOf capacity outs).byHeight (cacheOf capacity outs).byId := by
  induction outs using List.reverseRecOn with
  | nil => exact ⟨rfl, BlockCache.indexed_empty⟩
  | append_singleton outs o ih =>
    obtain ⟨hent, hidx⟩ := ih h.of_append
    have hle := h.of_append.held_le capacity
    have hmem : ∀ x ∈ (cacheOf capacity outs).byHeight.entries,
        ∃ b ∈ stackOf outs, x = entryOf b := by
      intro x hx
      rw [hent] at hx
      obtain ⟨b, hb, rfl⟩ := List.mem_map.1 hx
      exact ⟨b, List.mem_of_mem_take (List.mem_reverse.1 hb), rfl⟩
    rw [cacheOf_concat, windowOf, held_concat, Traced.stackOf_concat]
    cases o with
    | new s =>
      have hlt : ∀ x ∈ (cacheOf capacity outs).byHeight.entries, x.1 < s.block.height := by
        intro x hx
        obtain ⟨b, hb, rfl⟩ := hmem x hx
        exact h.height_lt_of_new hb
      have hid : ∀ x ∈ (cacheOf capacity outs).byHeight.entries, x.2.1 ≠ s.block.blockId := by
        intro x hx
        obtain ⟨b, hb, rfl⟩ := hmem x hx
        exact h.blockId_ne_of_new hb
      obtain ⟨h₁, h₂⟩ := BlockCache.insert_above s.block hidx hlt hid
      refine ⟨?_, h₂⟩
      have hlen : (cacheOf capacity outs).len = held capacity outs := by
        rw [BlockCache.len, SortedMap.size, hent, windowOf, List.length_map, List.length_reverse,
          List.length_take]
        omega
      have happ : (cacheOf capacity outs).byHeight.entries ++
          [(s.block.height, s.block.blockId, s.block)] =
          ((s.block :: stackOf outs).take (held capacity outs + 1)).reverse.map entryOf := by
        rw [hent, windowOf, List.take_succ_cons, List.reverse_cons, List.map_append]
        rfl
      rw [feedCache, h₁, happ, hlen, capacity_cacheOf, drop_map_reverse, List.take_take]
      have hk : (List.take (held capacity outs + 1) (s.block :: stackOf outs)).length =
          held capacity outs + 1 := by
        rw [List.length_take, List.length_cons]
        omega
      rw [hk]
      congr 3
      simp only [heldStep]
      omega
    | undo s =>
      obtain ⟨rest, hst⟩ := List.head?_eq_some_iff.1 h.head?_of_undo
      have happly : Replay.apply (stackOf outs) (Output.undo s).event = rest := by
        rw [hst]
        rfl
      rw [happly, feedCache]
      cases hk : held capacity outs with
      | zero =>
        have hnil : (cacheOf capacity outs).byHeight.entries = [] := by
          rw [hent, windowOf, hk]
          rfl
        rw [BlockCache.removeById_of_forall_ne hidx (by rw [hnil]; simp)]
        exact ⟨hnil, hidx⟩
      | succ k =>
        have hcat : (cacheOf capacity outs).byHeight.entries =
            (rest.take k).reverse.map entryOf ++ [(s.block.height, s.block.blockId, s.block)] := by
          rw [hent, windowOf, hk, hst, List.take_succ_cons, List.reverse_cons, List.map_append]
          rfl
        exact BlockCache.removeById_last hidx hcat
    | _ => exact ⟨hent, hidx⟩

/-- A chain by two relations is one by both. -/
theorem isChain_and {α : Type*} {R S : α → α → Prop} {l : List α} (hR : l.IsChain R)
    (hS : l.IsChain S) : l.IsChain fun a b => R a b ∧ S a b := by
  induction l with
  | nil => exact List.isChain_nil
  | cons a l ih =>
    obtain ⟨hRa, hRl⟩ := List.isChain_cons.1 hR
    obtain ⟨hSa, hSl⟩ := List.isChain_cons.1 hS
    exact List.isChain_cons.2 ⟨fun b hb => ⟨hRa b hb, hSa b hb⟩, ih hRl hSl⟩

/-- The cached heights are contiguous and the cached blocks linked. -/
theorem Traced.isChain_windowOf {capacity : ℕ} {outs : List Output} (h : Traced outs) :
    (windowOf capacity outs).IsChain fun x y => y.1 = x.1 + 1 ∧ y.2.2.parentId = x.2.1 := by
  rw [windowOf, List.isChain_map, List.isChain_reverse]
  have hp := h.isChain_parent.take (held capacity outs)
  have hh := h.isChain_height.take (held capacity outs)
  exact isChain_and hh hp

/-- A block undone and not accepted again is not on the stack. -/
theorem Traced.undone_off_stack {pre post : List Output} {s : StreamableBlock}
    (h : Traced (pre ++ .undo s :: post))
    (hnew : ∀ b ∈ accepted post, b.blockId ≠ s.block.blockId) :
    ∀ b ∈ stackOf (pre ++ .undo s :: post), b.blockId ≠ s.block.blockId := by
  rw [show pre ++ .undo s :: post = (pre ++ [.undo s]) ++ post by simp] at h ⊢
  have hpre := h.of_append
  obtain ⟨rest, hst⟩ := List.head?_eq_some_iff.1 hpre.head?_of_undo
  intro b hb
  rw [stackOf_append, Traced.stackOf_concat, hst] at hb
  rcases Replay.mem_replay hb with hbr | hbp
  · -- below the block undone, at another height
    intro hid
    have hstack : stackOf pre = s.block :: rest := hst
    have hpw := pairwise_height_of_isChain hpre.of_append.isChain_height
    rw [hstack] at hpw
    have hlt := (List.pairwise_cons.1 hpw).1 b hbr
    have hmem : ∀ x ∈ stackOf pre, x ∈ accepted pre := fun x hx => mem_accepted_of_mem_stackOf hx
    rw [hstack] at hmem
    have := (hpre.of_append.blockId b (hmem b (List.mem_cons_of_mem _ hbr)) s.block
      (hmem s.block (List.mem_cons_self ..)) hid).1
    omega
  · obtain ⟨o, ho, hob⟩ := List.mem_map.1 hbp
    refine hnew b (List.mem_filterMap.2 ⟨o, ho, ?_⟩)
    cases o with
    | new s' =>
      obtain rfl := Replay.Event.push.inj hob
      rfl
    | _ => cases hob

/-- **The cache is a window of the canonical chain.**  Feed the outputs of a run under the
chain rule to an empty cache.  After every single output the entries are the top `held`
blocks of the consumer's stack under their heights and ids, the index agrees, heights are
contiguous, blocks are linked, and no block undone and not accepted again is there. -/
theorem cache_window (config : ReorgConfig) (calls : List Call) (e : ReorgEngine)
    (outs : List Output) (capacity : ℕ) (cache : BlockCache BufferedBlock)
    (hr : runFresh config calls = some (e, outs)) (hc : ChainRule outs)
    (hnew : BlockCache.new capacity = some cache) (now : List Output) (hnow : now <+: outs) :
    (now.foldl feedCache cache).byHeight.entries =
        ((stackOf now).take (held capacity now)).reverse.map entryOf ∧
      BlockCache.Indexed (now.foldl feedCache cache).byHeight (now.foldl feedCache cache).byId ∧
      ((now.foldl feedCache cache).byHeight.entries.IsChain fun x y =>
        y.1 = x.1 + 1 ∧ y.2.2.parentId = x.2.1) ∧
      ∀ pre s post, now = pre ++ .undo s :: post →
        (∀ b ∈ accepted post, b.blockId ≠ s.block.blockId) →
        ∀ x ∈ (now.foldl feedCache cache).byHeight.entries, x.2.1 ≠ s.block.blockId := by
  have htraced := ((reached_of_runFresh hr).traced hc).of_isPrefix hnow
  have hcache : now.foldl feedCache cache = cacheOf capacity now := by
    obtain ⟨-, rfl⟩ := BlockCache.eq_of_new hnew
    rfl
  obtain ⟨hent, hidx⟩ := htraced.cacheOf_eq capacity
  rw [hcache]
  refine ⟨hent, hidx, by rw [hent]; exact htraced.isChain_windowOf, ?_⟩
  rintro pre s post rfl hagain x hx
  rw [hent] at hx
  obtain ⟨b, hb, rfl⟩ := List.mem_map.1 hx
  exact htraced.undone_off_stack hagain b (List.mem_of_mem_take (List.mem_reverse.1 hb))

/-- Three blocks, of which a reorg replaces the last two. -/
def deepReorg : List Call :=
  [.accept (synthAt 1 0 0) [], .accept (synthAt 2 0 0) [], .accept (synthAt 3 0 0) [],
    .accept (synthAt 2 1 0) []]

/-- The hypotheses hold of a cache of two blocks under a reorg as deep. -/
theorem cache_window_deepReorg :
    ∃ e outs cache, runFresh ReorgConfig.default deepReorg = some (e, outs) ∧ ChainRule outs ∧
      BlockCache.new 2 = some cache ∧
      (outs.foldl feedCache cache).byHeight.entries =
        ((stackOf outs).take (held 2 outs)).reverse.map entryOf :=
  ⟨_, _, _, rfl, by decide, rfl,
    (cache_window ReorgConfig.default deepReorg _ _ 2 _ rfl (by decide) rfl _
      List.prefix_rfl).1⟩

end Relayer
end Lightcycle
