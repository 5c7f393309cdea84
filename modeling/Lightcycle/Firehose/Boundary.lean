/-
# The edges of a backfill on a linear chain

The live filter drops what is at or below the last row of the backfill, whatever its step.
Two things follow at the edges.

Below the start: when the start height is one above the cache tip the backfill is empty and
the filter with it, so a block that was cached but not broadcast yet when the call
subscribed is delivered although it is below the start.  This never happens exactly when
the start is at or below the tip, or the tip had been broadcast (`nothing_below_start_iff`).

Finality: the `Irreversible` of a backfilled block is at or below the last row too, so it
is dropped when it is broadcast after the subscription (`finality_reaches_iff`).
-/

import Lightcycle.Firehose.Stitch
import Lightcycle.Relayer.Announce

namespace Lightcycle
namespace Firehose

open Relayer Store

variable {prost : Prost} {capacity : ℕ}

/-! ### The last read of the handler -/

/-- **The last read of a cache-only call**: the rows are the cached blocks from the start
height to the tip of the snapshot. -/
theorem World.Ok.walk {w w' : World} {pos h mn mx : ℕ} {head : Option ℕ}
    {rows backfill : List Response} (hok : w.Ok prost capacity)
    (harc : w.pipeline.archive = none)
    (hk : ∀ F, F <+: w.pipeline.fed → Keyed (cacheOf capacity F))
    (hread : w.session = some (.archived pos h head (some (mn, mx)) rows))
    (hadv : w.step prost .advance = some w')
    (hsession : w'.session = some (.streaming pos (some h) backfill)) :
    w'.pipeline = w.pipeline ∧ pos ≤ w.pipeline.log.length ∧
      ∃ (F : List Output) (cached : List BufferedBlock), w.pipeline.log.take pos <+: F ∧
        F <+: w.pipeline.fed ∧
        cacheWindow (cacheOf capacity F) = some (mn, mx) ∧
        backfill = cached.map (cachedResponse prost head) ∧ h ≤ mx + 1 ∧
        cached.map (·.height) = List.range' h (mx + 1 - h) ∧
        ∀ b ∈ cached, ∃ id, w.pipeline.cache.getByHeight b.height = some (id, b) := by
  obtain ⟨⟨hpos, F, hF, hfed, hwin⟩, hrows⟩ := hok.session _ hread
  obtain rfl := hrows harc
  have hkey : Keyed w.pipeline.cache := by
    rw [hok.pipeline.cache]
    exact hk _ List.prefix_rfl
  simp only [World.step, hread, Option.bind_some, Phase.advance] at hadv
  rcases cacheRows_nil hkey w.pipeline.archive.isSome (some (mn, mx)) h with
    ⟨status, herr, -⟩ | ⟨mn', mx', cached, hw, hcached, -, hle, hh, hall⟩
  · simp only [herr, Option.map_some, Option.some.injEq] at hadv
    rw [← hadv] at hsession
    cases hsession
  · obtain ⟨rfl, rfl⟩ := Prod.mk.inj (Option.some.inj hw)
    simp only [hcached, Option.map_some, Option.some.injEq] at hadv
    rw [← hadv] at hsession ⊢
    obtain rfl := (Phase.streaming.inj (Option.some.inj hsession)).2.2
    exact ⟨rfl, hpos, F, cached, hF, hfed, hwin.symm, List.nil_append _, hle, hh, hall⟩

/-- What an accepted call delivers later: its rows, then what was broadcast since it
subscribed. -/
theorem World.delivered_of_stays {w w' : World} {pos : ℕ} {start : Option ℕ}
    {backfill : List Response} {acts : List Action}
    (hsession : w.session = some (.streaming pos start backfill))
    (hrun : Run.exec (World.step prost) w acts = some w') (hstay : ∀ a ∈ acts, a.Stays) :
    w'.delivered prost = backfill ++ Phase.live prost backfill (w'.pipeline.log.drop pos) := by
  have hend := World.session_of_final (s := .streaming pos start backfill) (fun _ => rfl)
    hsession hrun hstay
  rw [World.delivered, hend]
  rfl

/-! ### Everything written gets broadcast -/

/-- What is in the channel can be broadcast. -/
theorem exec_pump (prost : Prost) {w : World} {os : List Output} (hos : w.pipeline.mpsc = os) :
    ∃ w', Run.exec (World.step prost) w (os.map fun _ => .task .pump) = some w' ∧
      w'.pipeline.log = w.pipeline.log ++ os ∧ w'.pipeline.outs = w.pipeline.outs := by
  induction os generalizing w with
  | nil => exact ⟨w, rfl, (List.append_nil _).symm, rfl⟩
  | cons o os ih =>
    have hstep : w.step prost (.task .pump) =
        some { w with pipeline := { w.pipeline with mpsc := os, log := w.pipeline.log ++ [o] } } := by
      simp only [World.step, Pipeline.step, hos, Option.map_some]
    obtain ⟨w', hr, hlog, houts⟩ := ih (w := { w with pipeline :=
      { w.pipeline with mpsc := os, log := w.pipeline.log ++ [o] } }) rfl
    refine ⟨w', Run.exec_cons_eq_some.2 ⟨_, hstep, hr⟩, ?_, ?_⟩
    · rw [hlog, List.append_assoc, List.singleton_append]
    · rw [houts]
      simp [Pipeline.outs, Pipeline.fed, hos]

/-- Everything written to the cache can be broadcast while the consumer stays. -/
theorem exists_exec_broadcast (prost : Prost) (w : World) :
    ∃ acts w', Run.exec (World.step prost) w acts = some w' ∧ (∀ a ∈ acts, a.Stays) ∧
      w'.pipeline.log = w.pipeline.fed ∧ w'.pipeline.outs = w.pipeline.outs := by
  have hstays : ∀ os : List Output, ∀ a ∈ os.map (fun _ => Action.task .pump), a.Stays := by
    intro os a ha
    obtain ⟨_, -, rfl⟩ := List.mem_map.1 ha
    trivial
  cases hhand : w.pipeline.inHand with
  | none =>
    obtain ⟨w', hr, hlog, houts⟩ := exec_pump prost (w := w) rfl
    refine ⟨_, w', hr, hstays _, ?_, houts⟩
    rw [hlog, Pipeline.fed, hhand, Option.toList_none, List.append_nil]
  | some o =>
    have hstep : w.step prost (.task .send) = some { w with pipeline :=
        { w.pipeline with inHand := none, mpsc := w.pipeline.mpsc ++ [o] } } := by
      simp only [World.step, Pipeline.step, hhand, Option.map_some]
    obtain ⟨w', hr, hlog, houts⟩ := exec_pump prost (w := { w with pipeline :=
      { w.pipeline with inHand := none, mpsc := w.pipeline.mpsc ++ [o] } }) rfl
    refine ⟨.task .send :: _, w', Run.exec_cons_eq_some.2 ⟨_, hstep, hr⟩, ?_, ?_, ?_⟩
    · exact List.forall_mem_cons.2 ⟨trivial, hstays _⟩
    · rw [hlog, Pipeline.fed, hhand, Option.toList_some, List.append_assoc]
    · rw [houts]
      simp [Pipeline.outs, Pipeline.fed, hhand]

/-! ### Below the start -/

/-- Behind no backfill every accepted block is new. -/
theorem newHeights_live_nil (outs : List Output) :
    newHeights (Phase.live prost [] outs) = (accepted outs).map (·.height) := by
  rw [live_of_none rfl, newHeights_wire, accepted_eq_wire, List.map_map]
  rfl

/-- With rows up to `mx` nothing below the first row is delivered. -/
theorem le_of_mem_newHeights {cached : List BufferedBlock} {head : Option ℕ} {h mx n : ℕ}
    (hh : cached.map (·.height) = List.range' h (mx + 1 - h)) (hle : h ≤ mx) {outs : List Output}
    (hn : n ∈ newHeights (cached.map (cachedResponse prost head) ++
      Phase.live prost (cached.map (cachedResponse prost head)) outs)) : h ≤ n := by
  rw [newHeights_append, newHeights_cached, hh,
    newHeights_live (lastBackfillHeight_of_range' hh hle)] at hn
  rcases List.mem_append.1 hn with hn | hn
  · exact (List.mem_range'_1.1 hn).1
  · have := (List.mem_filter.1 hn).2
    simp only [decide_eq_true_eq] at this
    omega

/-- The heights broadcast since the subscription continue those before it. -/
theorem Linear.first_after {outs log : List Output} (h : Linear outs) (hlog : log <+: outs)
    {pos mx : ℕ} (hlast : (accepted (log.take pos)).getLast?.map (·.height) = some mx) :
    ∀ b ∈ accepted (log.drop pos), mx + 1 ≤ b.height := by
  intro b hb
  have hpre := h.map_height ((List.take_prefix pos log).trans hlog)
  rw [← List.getLast?_map, hpre, List.getLast?_range'] at hlast
  split_ifs at hlast with hz
  rw [Option.some.injEq] at hlast
  have hmem : b.height ∈ (accepted (log.drop pos)).map (·.height) :=
    List.mem_map_of_mem (f := fun b : BufferedBlock => b.height) hb
  rw [h.map_height_drop hlog, List.mem_range'_1] at hmem
  omega

/-- When the last block broadcast at the subscription is not the tip of the snapshot, a block
up to the tip is broadcast afterwards. -/
theorem Linear.exists_pending {outs log F : List Output} (h : Linear outs) (hlog : log <+: outs)
    (hcap : 0 < capacity) {pos mn mx : ℕ} (hF : log.take pos <+: F) (hFlog : F <+: log)
    (hwin : cacheWindow (cacheOf capacity F) = some (mn, mx))
    (hlast : (accepted (log.take pos)).getLast?.map (·.height) ≠ some mx) :
    ∃ b ∈ accepted (log.drop pos), b.height ≤ mx := by
  obtain ⟨hm, htip⟩ := h.tip_eq (hFlog.trans hlog) hcap hwin
  have hlt : (accepted (log.take pos)).length < (accepted F).length := by
    refine lt_of_le_of_ne (length_accepted_le hF) fun heq => hlast ?_
    rw [← List.getLast?_map, h.map_height ((List.take_prefix pos log).trans hlog), heq,
      List.getLast?_range', if_neg (by omega)]
    congr 1
    omega
  have hlenF := length_accepted_le hFlog
  have hlen : (accepted log).length =
      (accepted (log.take pos)).length + (accepted (log.drop pos)).length := by
    rw [← List.length_append, ← accepted_append, List.take_append_drop]
  have hmem : Linear.firstHeight outs + (accepted (log.take pos)).length ∈
      (accepted (log.drop pos)).map (·.height) := by
    rw [h.map_height_drop hlog, List.mem_range'_1]
    omega
  obtain ⟨b, hb, hbh⟩ := List.mem_map.1 hmem
  exact ⟨b, hb, by omega⟩

/-- **When nothing below the start is delivered.**  A cache-only call on a linear chain is
accepted at start height `h`, the tip of its snapshot being `mx`.  Whatever happens then,
no `STEP_NEW` below `h` is delivered, exactly when `h` is at or below the tip or the last
block broadcast when the call subscribed is the tip. -/
theorem nothing_below_start_iff (prost : Prost) (config : ReorgConfig) (capacity : ℕ)
    (before : List Action) (w₀ w₁ w₂ : World) (pos h mn mx : ℕ) (head : Option ℕ)
    (rows backfill : List Response) (hinit : World.init config capacity none = some w₀)
    (hbefore : Run.exec (World.step prost) w₀ before = some w₁)
    (hread : w₁.session = some (.archived pos h head (some (mn, mx)) rows))
    (hadv : w₁.step prost .advance = some w₂)
    (hsession : w₂.session = some (.streaming pos (some h) backfill))
    (hlinear : Linear w₂.pipeline.outs) :
    (∀ after w, Run.exec (World.step prost) w₂ after = some w → (∀ a ∈ after, a.Stays) →
      Linear w.pipeline.outs → ∀ n ∈ newHeights (w.delivered prost), h ≤ n) ↔
      h ≤ mx ∨ (accepted (w₂.pipeline.log.take pos)).getLast?.map (·.height) = some mx := by
  obtain ⟨hok₁, hcap, harc⟩ := archive_of_run hinit hbefore
  have hok₂ := (hok₁.step hadv).1
  have hpipe : w₂.pipeline = w₁.pipeline := by
    obtain ⟨s', -, rfl⟩ := Option.map_eq_some_iff.1 hadv
    rfl
  have hk : ∀ F, F <+: w₁.pipeline.fed → Keyed (cacheOf capacity F) :=
    hok₁.pipeline.keyed hcap (hpipe ▸ hlinear)
  obtain ⟨-, hpos, F, cached, hF, hfed, hwin, rfl, hle, hh, -⟩ :=
    hok₁.walk (by simpa using harc) hk hread hadv hsession
  rw [← hpipe] at hpos hF hfed
  constructor
  · -- otherwise the tip can still be broadcast, and it is below the start
    intro hall
    by_contra hnot
    push Not at hnot
    obtain ⟨hmx, hlast⟩ := hnot
    obtain ⟨acts, w, hrun, hstay, hlog, houts⟩ := exists_exec_broadcast prost w₂
    have hlin : Linear w.pipeline.outs := houts ▸ hlinear
    have hlogo : w.pipeline.log <+: w.pipeline.outs :=
      w.pipeline.log_prefix_fed.trans w.pipeline.fed_prefix_outs
    have htake := (Phase.take_of_extends (hok₂.exec hrun).2 hpos).1
    obtain ⟨b, hb, hbh⟩ := hlin.exists_pending hlogo hcap (htake ▸ hF) (hlog ▸ hfed) hwin
      (htake ▸ hlast)
    have hnil : cached = [] := eq_nil_of_range' hh (by omega)
    refine absurd (hall acts w hrun hstay hlin b.height ?_) (by omega)
    rw [World.delivered_of_stays hsession hrun hstay, hnil, List.map_nil, List.nil_append,
      newHeights_live_nil]
    exact List.mem_map_of_mem (f := fun b : BufferedBlock => b.height) hb
  · intro hcond after w hrun hstay hlin n hn
    rw [World.delivered_of_stays hsession hrun hstay] at hn
    rcases Nat.lt_or_ge mx h with hgt | hge
    · have hlast := hcond.resolve_left (by omega)
      have hext := (hok₂.exec hrun).2
      have hlogo : w.pipeline.log <+: w.pipeline.outs :=
        w.pipeline.log_prefix_fed.trans w.pipeline.fed_prefix_outs
      rw [← (Phase.take_of_extends hext hpos).1] at hlast
      have hnil : cached = [] := eq_nil_of_range' hh (by omega)
      rw [hnil, List.map_nil, List.nil_append, newHeights_live_nil] at hn
      obtain ⟨b, hb, rfl⟩ := List.mem_map.1 hn
      have := hlin.first_after hlogo hlast b hb
      omega
    · exact le_of_mem_newHeights hh hge hn

/-- Block 1 is broadcast and block 2 only written to the cache; a call from height `h` then
makes its reads up to the last. -/
def tipInHand (h : ℕ) : List Action :=
  .task (.call (.accept (synthAt 1 0 0) [])) :: deliver ++
    [.task (.call (.accept (synthAt 2 0 0) [])), .task .feed, .connect (startingAt h), .advance,
      .advance, .advance, .advance]

/-- The last read, then block 2 is broadcast. -/
def tipBroadcast : List Action := [.advance, .task .send, .task .pump]

/-- **A block below the start is delivered**: the call starts one above the cache tip while
the tip is still on its way to the hub. -/
theorem block_below_start : ¬ ∀ (prost : Prost) (config : ReorgConfig) (capacity : ℕ)
    (acts : List Action) (w₀ w : World) (pos h : ℕ) (backfill : List Response),
    World.init config capacity none = some w₀ →
    Run.exec (World.step prost) w₀ acts = some w →
    Linear w.pipeline.outs →
    w.session = some (.streaming pos (some h) backfill) →
    ∀ n ∈ newHeights (w.delivered prost), h ≤ n := by
  intro hall
  have hbelow : 3 ≤ 2 := hall (prostOf []) ⟨4, 1⟩ 8 (tipInHand 3 ++ tipBroadcast) _ _ 1 3 _
    rfl rfl (by decide) rfl 2 (by decide)
  omega

/-- The hypotheses hold of a call from the tip. -/
theorem nothing_below_start_iff_tip :
    ∃ w₀ w₁ w₂, World.init ⟨4, 1⟩ 8 none = some w₀ ∧
      Run.exec (World.step (prostOf [])) w₀ (tipInHand 2) = some w₁ ∧
      w₁.step (prostOf []) .advance = some w₂ ∧
      ((∀ after w, Run.exec (World.step (prostOf [])) w₂ after = some w →
        (∀ a ∈ after, a.Stays) → Linear w.pipeline.outs →
        ∀ n ∈ newHeights (w.delivered (prostOf [])), 2 ≤ n) ↔
      2 ≤ 2 ∨ (accepted (w₂.pipeline.log.take 1)).getLast?.map (·.height) = some 2) :=
  ⟨_, _, _, rfl, rfl, rfl,
    nothing_below_start_iff (prostOf []) ⟨4, 1⟩ 8 (tipInHand 2) _ _ _ 1 2 1 2 none _ _
      rfl rfl rfl rfl rfl (by decide)⟩

/-! ### Finality of a backfilled block -/

/-- The response is about the block: it carries its height and its id. -/
def Response.IsFor (r : Response) (b : BufferedBlock) : Prop :=
  ∃ m, r.metadata = some m ∧ m.num = b.height ∧ m.id = BlockId.hex b.blockId

/-- A live response is for its block. -/
theorem isFor_streamable (sb : StreamableBlock) (step : ForkStep) :
    (streamableToResponse prost sb step).IsFor sb.block := ⟨_, rfl, rfl, rfl⟩

/-- Every block delivered as new whose `Irreversible` was broadcast since the subscription
has been delivered as final. -/
def FinalityReaches (delivered : List Response) (since : List Output) : Prop :=
  ∀ r ∈ delivered, r.step = .stepNew → ∀ s, .irreversible s ∈ since → r.IsFor s.block →
    ∃ r' ∈ delivered, r'.step = .stepFinal ∧ r'.IsFor s.block

/-- A response with `STEP_NEW` for a block has its height among the new ones. -/
theorem mem_newHeights {rows : List Response} {r : Response} {b : BufferedBlock} (hr : r ∈ rows)
    (hnew : r.step = .stepNew) (hb : r.IsFor b) : b.height ∈ newHeights rows := by
  obtain ⟨m, hm, hnum, -⟩ := hb
  refine List.mem_filterMap.2 ⟨r, List.mem_filter.2 ⟨hr, by simpa using hnew⟩, ?_⟩
  rw [hm, ← hnum]
  rfl

/-- A live response is above the backfill. -/
theorem lt_of_mem_live {backfill : List Response} {last : ℕ} {outs : List Output} {r : Response}
    (hlast : lastBackfillHeight backfill = some last) (hr : r ∈ Phase.live prost backfill outs)
    {b : BufferedBlock} (hb : r.IsFor b) : last < b.height := by
  rw [live_of_some hlast] at hr
  obtain ⟨x, hx, rfl⟩ := List.mem_map.1 hr
  obtain ⟨m, hm, hnum, -⟩ := hb
  obtain rfl := Option.some.inj hm
  rw [← hnum]
  exact of_decide_eq_true (List.mem_filter.1 hx).2

/-- An `Irreversible` above the backfill is delivered. -/
theorem final_mem_live {backfill : List Response} {last : ℕ} {outs : List Output}
    {s : StreamableBlock} (hlast : lastBackfillHeight backfill = some last)
    (hs : .irreversible s ∈ outs) (hlt : last < s.block.height) :
    streamableToResponse prost s .stepFinal ∈ Phase.live prost backfill outs := by
  rw [live_of_some hlast]
  refine List.mem_map.2 ⟨(s, .stepFinal), List.mem_filter.2 ⟨?_, by simpa using hlt⟩, rfl⟩
  exact List.mem_filterMap.2 ⟨_, hs, rfl⟩

/-- On a linear chain a height has one accepted block. -/
theorem Linear.eq_of_height {outs : List Output} (h : Linear outs) {a b : BufferedBlock}
    (ha : a ∈ accepted outs) (hb : b ∈ accepted outs) (heq : a.height = b.height) : a = b := by
  have hchain : (accepted outs).reverse.IsChain heightLink := List.isChain_reverse.2 h.ascending
  exact eq_of_height_eq hchain (List.mem_reverse.2 ha) (List.mem_reverse.2 hb) heq

/-- **When a backfilled block gets its finality event.**  A cache-only call on a linear
chain is accepted at start height `h` with a backfill up to the tip `mx` of its snapshot.
Every block it delivers as new is delivered as final once its `Irreversible` is broadcast,
exactly when no `Irreversible` broadcast since the subscription is of a height in the
backfill. -/
theorem finality_reaches_iff (prost : Prost) (config : ReorgConfig) (capacity : ℕ)
    (before after : List Action) (w₀ w₁ w₂ w : World) (pos h mn mx : ℕ) (head : Option ℕ)
    (rows backfill : List Response) (hinit : World.init config capacity none = some w₀)
    (hbefore : Run.exec (World.step prost) w₀ before = some w₁)
    (hread : w₁.session = some (.archived pos h head (some (mn, mx)) rows))
    (hadv : w₁.step prost .advance = some w₂)
    (hsession : w₂.session = some (.streaming pos (some h) backfill)) (hne : h ≤ mx)
    (hafter : Run.exec (World.step prost) w₂ after = some w) (hstay : ∀ a ∈ after, a.Stays)
    (hlinear : Linear w.pipeline.outs) :
    FinalityReaches (w.delivered prost) (w.pipeline.log.drop pos) ↔
      ∀ s, .irreversible s ∈ w.pipeline.log.drop pos →
        s.block.height < h ∨ mx < s.block.height := by
  obtain ⟨hok₁, hcap, harc⟩ := archive_of_run hinit hbefore
  obtain ⟨hok₂, hext₁⟩ := hok₁.step hadv
  have hext := hext₁.trans (hok₂.exec hafter).2
  have hlin₁ : Linear w₁.pipeline.outs := hlinear.of_isPrefix hext.outs
  obtain ⟨-, -, F, cached, -, -, -, rfl, -, hh, hall⟩ :=
    hok₁.walk (by simpa using harc) (hok₁.pipeline.keyed hcap hlin₁) hread hadv hsession
  have hdel := World.delivered_of_stays hsession hafter hstay
  have hlast : lastBackfillHeight (cached.map (cachedResponse prost head)) = some mx :=
    lastBackfillHeight_of_range' hh hne
  rw [hdel]
  constructor
  · -- the cached block of that height is the one announced, and its `STEP_FINAL` is dropped
    intro hreach s hs
    by_contra hin
    push Not at hin
    obtain ⟨b, hb, hbh⟩ : ∃ b ∈ cached, b.height = s.block.height := by
      refine List.mem_map.1 ?_
      rw [hh, List.mem_range'_1]
      omega
    have hcached : b ∈ accepted w.pipeline.outs := by
      obtain ⟨id, hid⟩ := hall b hb
      rw [hok₁.pipeline.cache] at hid
      have hfed := (hlin₁.of_isPrefix w₁.pipeline.fed_prefix_outs).cacheOf_spec hcap
      exact accepted_subset (w₁.pipeline.fed_prefix_outs.trans hext.outs) b
        (hfed.1 _ (SortedMap.get?_eq_some.1 hid)).2
    have hannounced : s.block ∈ accepted w.pipeline.outs := by
      obtain ⟨calls, hcalls⟩ := World.exists_calls hinit (Run.exec_append_eq_some.2
        ⟨w₁, hbefore, Run.exec_cons_eq_some.2 ⟨w₂, hadv, hafter⟩⟩)
      refine mem_accepted_of_irreversible hcalls ?_
      exact (w.pipeline.log_prefix_fed.trans w.pipeline.fed_prefix_outs).subset
        (List.mem_of_mem_drop hs)
    obtain rfl := hlinear.eq_of_height hcached hannounced hbh
    obtain ⟨r, hr, hfinal, hfor⟩ := hreach (cachedResponse prost head s.block)
      (List.mem_append_left _ (List.mem_map_of_mem hb)) rfl s hs (isFor_streamable _ _)
    rcases List.mem_append.1 hr with hr | hr
    · obtain ⟨c, -, rfl⟩ := List.mem_map.1 hr
      cases hfinal
    · have := lt_of_mem_live hlast hr hfor
      omega
  · intro hcond r hr hnew s hs hfor
    rcases hcond s hs with hlow | hhigh
    · have := le_of_mem_newHeights hh hne (mem_newHeights hr hnew hfor)
      omega
    · exact ⟨_, List.mem_append_right _ (final_mem_live hlast hs hhigh), rfl,
        isFor_streamable s .stepFinal⟩

/-- Blocks 1 and 2 are broadcast; a call from height `h` then makes its reads up to the last. -/
def bothBroadcast (h : ℕ) : List Action :=
  .task (.call (.accept (synthAt 1 0 0) [])) :: deliver ++
    .task (.call (.accept (synthAt 2 0 0) [])) :: deliver ++
      [.connect (startingAt h), .advance, .advance, .advance, .advance]

/-- The solidified head moves to block 1. -/
def firstSolidified : List Action := .task (.call (.setSolidifiedHead 1)) :: deliver

/-- **A backfilled block stays without its finality event**: block 1 is backfilled, and its
`Irreversible` is at or below the last row. -/
theorem finality_dropped : ¬ ∀ (prost : Prost) (config : ReorgConfig) (capacity : ℕ)
    (acts : List Action) (w₀ w : World) (pos h : ℕ) (backfill : List Response),
    World.init config capacity none = some w₀ →
    Run.exec (World.step prost) w₀ acts = some w →
    Linear w.pipeline.outs →
    w.session = some (.streaming pos (some h) backfill) → backfill ≠ [] →
    FinalityReaches (w.delivered prost) (w.pipeline.log.drop pos) := by
  intro hall
  have hreach := hall (prostOf []) ⟨4, 1⟩ 8 (bothBroadcast 1 ++ .advance :: firstSolidified) _ _ 2 1
    _ rfl rfl (by decide) rfl (by simp [backfillOf])
  obtain ⟨r, hr, hfinal, -⟩ := hreach _ (List.mem_cons_self ..) rfl _ (List.mem_singleton_self _)
    (isFor_streamable _ _)
  revert hfinal
  revert r
  decide

/-- The hypotheses hold of a call from block 2: the block announced is below it. -/
theorem finality_reaches_iff_second :
    ∃ w₀ w₁ w₂ w, World.init ⟨4, 1⟩ 8 none = some w₀ ∧
      Run.exec (World.step (prostOf [])) w₀ (bothBroadcast 2) = some w₁ ∧
      w₁.step (prostOf []) .advance = some w₂ ∧
      Run.exec (World.step (prostOf [])) w₂ firstSolidified = some w ∧
      (FinalityReaches (w.delivered (prostOf [])) (w.pipeline.log.drop 2) ↔
        ∀ s, .irreversible s ∈ w.pipeline.log.drop 2 → s.block.height < 2 ∨ 2 < s.block.height) :=
  ⟨_, _, _, _, rfl, rfl, rfl, rfl,
    finality_reaches_iff (prostOf []) ⟨4, 1⟩ 8 (bothBroadcast 2) firstSolidified _ _ _ _ 2 2 1 2
      none _ _ rfl rfl rfl rfl rfl (by decide) rfl
      (by simp [firstSolidified, deliver, Action.Stays]) (by decide)⟩

end Firehose
end Lightcycle
