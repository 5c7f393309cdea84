/-
# A consumer that keeps coming back

A consumer drops its call when it likes and comes back with the cursor of the last response it
took (`crates/lightcycle-firehose/src/server.rs`).  The response may be the one that a block became
irreversible, so the next call may start far below what the consumer had, and give it blocks
again.  On a linear chain it never misses one (`at_least_once`).

However early a call is dropped, it has delivered the blocks of a range of heights that begins no
later than asked, and nothing about a block above the range (`Phase.Ok.taken`).  The next
call asks for one above the last response, so that its range joins on (`Gapless`).
-/

import Lightcycle.Firehose.Cursors
import Lightcycle.Firehose.Resume

namespace Lightcycle
namespace Firehose

open Relayer Store

/-- From each of the heights on, none up to `last` is missing. -/
def Gapless (ns : List ℕ) (last : ℕ) : Prop := ∀ a ∈ ns, ∀ k, a ≤ k → k ≤ last → k ∈ ns

section Gapless

variable {ns : List ℕ} {a n last last' : ℕ}

/-- Consecutive heights that reach the last one have no gap. -/
theorem gapless_range' (hlast : last < a + n) : Gapless (List.range' a n) last := by
  intro b hb k hbk hk
  rw [List.mem_range'_1] at hb ⊢
  omega

/-- A range that begins no later than right after `last` joins on. -/
theorem Gapless.append_range' (h : Gapless ns last) (ha : a ≤ last + 1) (hlast : last' < a + n) :
    Gapless (ns ++ List.range' a n) last' := by
  intro b hb k hbk hk
  rcases List.mem_append.1 hb with hb | hb
  · rcases Nat.lt_or_ge last k with hlt | hle
    · exact List.mem_append_right _ (List.mem_range'_1.2 ⟨by omega, by omega⟩)
    · exact List.mem_append_left _ (h b hb k hbk hle)
  · exact List.mem_append_right _ (gapless_range' hlast b hb k hbk hk)

end Gapless

/-! ### Heights on a linear chain -/

variable {prost : Prost} {capacity : ℕ} {outs P : List Output}

namespace Linear

/-- The blocks accepted so far are below the next height. -/
theorem height_lt (h : Linear outs) (hP : P <+: outs) {b : BufferedBlock} (hb : b ∈ accepted P) :
    b.height < firstHeight outs + (accepted P).length := by
  have hmem := List.mem_map_of_mem (f := fun b : BufferedBlock => b.height) hb
  rw [h.map_height hP, List.mem_range'_1] at hmem
  exact hmem.2

/-- What is on the wire is about a block that was accepted. -/
theorem wire_accepted (h : Linear outs) (hsound : Replay.MarkSound [] (outs.map Output.event))
    (hP : P <+: outs) {s : StreamableBlock} {step : ForkStep} (hs : (s, step) ∈ wire P) :
    s.block ∈ accepted P := by
  obtain ⟨o, ho, hwire⟩ := List.mem_filterMap.1 hs
  obtain ⟨rest, rfl⟩ := hP
  have hevent := List.mem_map_of_mem (f := Output.event) ho
  rw [List.map_append, Replay.markSound_append] at hsound
  cases o with
  | new t =>
    obtain ⟨rfl, -⟩ := Prod.mk.inj (Option.some.inj hwire)
    exact mem_accepted_of_push hevent
  | undo t => exact absurd (h.noUndo _ (List.mem_append_left _ ho)) (by simp [isUndo])
  | irreversible t =>
    obtain ⟨rfl, -⟩ := Prod.mk.inj (Option.some.inj hwire)
    exact mem_accepted_of_push (hsound.1.push_of_mark hevent)
  | _ => cases hwire

/-- What is cached was accepted. -/
theorem mem_accepted_of_cached (h : Linear outs) (hcap : 0 < capacity) {k : ℕ} {id : BlockId}
    {b : BufferedBlock} (hget : (cacheOf capacity outs).getByHeight k = some (id, b)) :
    b ∈ accepted outs :=
  ((h.cacheOf_spec hcap).1 _ (SortedMap.get?_eq_some.1 hget)).2

end Linear

/-! ### One call -/

/-- The response is about a block below `n`. -/
def Response.Below (n : ℕ) (r : Response) : Prop := ∀ m, r.metadata = some m → m.num < n

/-- The call asks for a height up to `n`. -/
def Phase.AsksBy (n : ℕ) : Phase → Prop
  | .subscribed _ start => ∃ h, start = some h ∧ h ≤ n
  | .headRead _ h _ => h ≤ n
  | .snapshotted _ h _ _ => h ≤ n
  | .spanned _ h _ _ _ => h ≤ n
  | .archived _ h _ _ _ => h ≤ n
  | .streaming _ start _ => ∃ h, start = some h ∧ h ≤ n
  | .refused _ => True

/-- A call goes on asking for the height it started with. -/
theorem Phase.AsksBy.advance {n : ℕ} {p : Pipeline} {s s' : Phase} (h : s.AsksBy n)
    (hadv : s.advance prost p = some s') : s'.AsksBy n := by
  cases Phase.reads_of_advance hadv with
  | live => exact h
  | head pos start =>
    obtain ⟨_, heq, hle⟩ := h
    exact Option.some.inj heq ▸ hle
  | cache => exact ⟨_, rfl, h⟩
  | noArchive | noCache => exact trivial
  | _ => exact h

/-- What a receiver at `pos` got of a log is what comes after `pos` in a part of the log. -/
theorem exists_prefix {pos : ℕ} {log since : List Output} (hpos : pos ≤ log.length)
    (hsince : since <+: log.drop pos) :
    ∃ P, P <+: log ∧ P.take pos = log.take pos ∧ P.drop pos = since := by
  obtain ⟨rest, hrest⟩ := hsince
  have hlen : (log.take pos).length = pos := List.length_take_of_le hpos
  refine ⟨log.take pos ++ since, ⟨rest, ?_⟩, List.take_left' hlen, List.drop_left' hlen⟩
  rw [List.append_assoc, hrest, List.take_append_drop]

/-- The blocks accepted are those before a position and those after it. -/
theorem length_accepted_drop (P : List Output) (pos : ℕ) :
    (accepted P).length = (accepted (P.take pos)).length + (accepted (P.drop pos)).length := by
  rw [← List.length_append, ← accepted_append, List.take_append_drop]

/-- What the live stream delivers is about blocks accepted by then. -/
theorem live_below (hlinear : Linear outs) (hsound : Replay.MarkSound [] (outs.map Output.event))
    (hP : P <+: outs) {pos : ℕ} {backfill : List Response} :
    ∀ r ∈ Phase.live prost backfill (P.drop pos),
      r.Below (Linear.firstHeight outs + (accepted P).length) ∧ r.Accepted outs := by
  intro r hr
  obtain ⟨s, step, hs, rfl⟩ := mem_live hr
  have hs' : (s, step) ∈ wire P := List.Sublist.subset ((List.drop_sublist _ _).filterMap _) hs
  have hacc := hlinear.wire_accepted hsound hP hs'
  refine ⟨fun m hm => ?_, fun x hx => ⟨s.block, accepted_subset hP _ hacc, ?_⟩⟩
  · obtain rfl := Option.some.inj hm
    exact hlinear.height_lt hP hacc
  · cases step with
    | stepNew => exact Replay.Event.push.inj hx
    | stepUndo | stepFinal => cases hx

/-- A call without a backfill, as far as it was taken. -/
theorem live_taken {p : Pipeline} (hlinear : Linear p.outs)
    (hsound : Replay.MarkSound [] (p.outs.map Output.event)) {pos : ℕ} (hpos : pos ≤ p.log.length)
    {rows : List Response} (hrows : rows <+: Phase.live prost [] (p.log.drop pos)) :
    ∃ n, newHeights rows =
        List.range' (Linear.firstHeight p.outs + (accepted (p.log.take pos)).length) n ∧
      ∀ r ∈ rows, r.Below (Linear.firstHeight p.outs + (accepted (p.log.take pos)).length + n) ∧
        r.Accepted p.outs := by
  obtain ⟨since, hsince, rfl⟩ := List.prefix_filterMap_iff.1 hrows
  obtain ⟨P, hP, htake, hdrop⟩ := exists_prefix hpos hsince
  have hPo := hP.trans (p.log_prefix_fed.trans p.fed_prefix_outs)
  refine ⟨(accepted (P.drop pos)).length, ?_, ?_⟩
  · rw [← htake, ← hdrop]
    exact (newHeights_live_nil _).trans (hlinear.map_height_drop hPo pos)
  · rw [← htake, ← hdrop, Nat.add_assoc, ← length_accepted_drop]
    exact live_below hlinear hsound hPo

/-- The cached responses are below the end of the walk. -/
theorem below_cached {head : Option ℕ} {bs : List BufferedBlock} {h n : ℕ}
    (hh : bs.map (·.height) = List.range' h n) {b : BufferedBlock} (hb : b ∈ bs) :
    (cachedResponse prost head b).Below (h + n) := by
  intro m hm
  obtain rfl := Option.some.inj hm
  have hmem := List.mem_map_of_mem (f := fun b : BufferedBlock => b.height) hb
  rw [hh, List.mem_range'_1] at hmem
  exact hmem.2

/-- A call with a backfill, as far as it was taken. -/
theorem backfill_taken {p : Pipeline} (hcap : 0 < capacity) (hlinear : Linear p.outs)
    (hsound : Replay.MarkSound [] (p.outs.map Output.event)) {pos h mn mx : ℕ}
    (hpos : pos ≤ p.log.length) {F F' : List Output} {head : Option ℕ} {cached : List BufferedBlock}
    (hF : p.log.take pos <+: F) (hFF' : F <+: F') (hfed : F' <+: p.fed)
    (hw : cacheWindow (cacheOf capacity F) = some (mn, mx)) (hle : h ≤ mx)
    (hh : cached.map (·.height) = List.range' h (mx + 1 - h))
    (hall : ∀ b ∈ cached, ∃ id, (cacheOf capacity F').getByHeight b.height = some (id, b))
    {rows : List Response}
    (hrows : rows <+: cached.map (cachedResponse prost head) ++
      Phase.live prost (cached.map (cachedResponse prost head)) (p.log.drop pos)) :
    ∃ n, newHeights rows = List.range' h n ∧
      ∀ r ∈ rows, r.Below (h + n) ∧ r.Accepted p.outs := by
  have hFo := hfed.trans p.fed_prefix_outs
  have hcached : ∀ b ∈ cached, b ∈ accepted p.outs := fun b hb => by
    obtain ⟨id, hid⟩ := hall b hb
    exact accepted_subset hFo b ((hlinear.of_isPrefix hFo).mem_accepted_of_cached hcap hid)
  have hrow : ∀ b ∈ cached, (cachedResponse prost head b).Accepted p.outs := fun b hb x hx =>
    ⟨b, hcached b hb, Replay.Event.push.inj hx⟩
  rcases Nat.le_total rows.length (cached.map (cachedResponse prost head)).length with hlen | hlen
  · -- dropped within the backfill
    obtain ⟨part, hpart, rfl⟩ := List.prefix_map_iff.1
      (List.prefix_of_prefix_length_le hrows (List.prefix_append _ _) hlen)
    obtain ⟨rest, rfl⟩ := hpart
    rw [List.map_append] at hh
    obtain ⟨n, -, hheights, -⟩ := List.range'_eq_append_iff.1 hh.symm
    refine ⟨n, by rw [newHeights_cached, hheights], fun r hr => ?_⟩
    obtain ⟨b, hb, rfl⟩ := List.mem_map.1 hr
    exact ⟨below_cached hheights hb, hrow b (List.mem_append_left _ hb)⟩
  · obtain ⟨rest, rfl⟩ :=
      List.prefix_of_prefix_length_le (List.prefix_append _ _) hrows hlen
    obtain ⟨since, hsince, rfl⟩ :=
      List.prefix_filterMap_iff.1 ((List.prefix_append_right_inj _).1 hrows)
    obtain ⟨P, hP, htake, hdrop⟩ := exists_prefix hpos hsince
    have hPo := hP.trans (p.log_prefix_fed.trans p.fed_prefix_outs)
    obtain ⟨hm, htip⟩ := hlinear.tip_eq (hFF'.trans hFo) hcap hw
    have hprele := length_accepted_le hF
    have hlenP := length_accepted_drop P pos
    rw [← htake] at hprele
    refine ⟨mx + 1 - h + (Linear.firstHeight p.outs + (accepted P).length - (mx + 1)), ?_, ?_⟩
    · rw [← hdrop, newHeights_append, newHeights_cached, hh]
      refine (congrArg _ (newHeights_live (lastBackfillHeight_of_range' hh hle) _)).trans ?_
      rw [hlinear.map_height_drop hPo, filter_lt_range' (by omega), ← List.range'_append_1,
        show h + (mx + 1 - h) = mx + 1 by omega]
      congr 2
      omega
    · intro r hr
      rcases List.mem_append.1 hr with hr | hr
      · obtain ⟨b, hb, rfl⟩ := List.mem_map.1 hr
        exact ⟨fun m hm => (below_cached hh hb m hm).trans_le (by omega), hrow b hb⟩
      · rw [← hdrop] at hr
        obtain ⟨hbelow, hacc⟩ := live_below hlinear hsound hPo r hr
        exact ⟨fun m hm => (hbelow m hm).trans_le (by omega), hacc⟩

/-- **One call, as far as it was taken**: the heights of a range that begins no later than
asked, and nothing about a block above the range. -/
theorem Phase.Ok.taken {p : Pipeline} {s : Phase} (hs : s.Ok prost capacity p)
    (hp : p.Ok capacity) (hcap : 0 < capacity) (harc : p.archive = none) (hlinear : Linear p.outs)
    (hsound : Replay.MarkSound [] (p.outs.map Output.event)) {rows : List Response}
    (hrows : rows <+: s.delivered prost p.log) :
    ∃ a n, newHeights rows = List.range' a n ∧ (∀ k, s.AsksBy k → a ≤ k) ∧
      ∀ r ∈ rows, r.Below (a + n) ∧ r.Accepted p.outs := by
  cases s with
  | streaming pos start backfill =>
    cases start with
    | none =>
      obtain ⟨hpos, rfl⟩ := hs
      obtain ⟨n, hnew, hall⟩ := live_taken hlinear hsound hpos hrows
      exact ⟨_, n, hnew, fun _ ⟨_, hnone, _⟩ => (Option.some_ne_none _ hnone.symm).elim, hall⟩
    | some h =>
      obtain ⟨hpos, hwalked⟩ := hs
      obtain ⟨F, F', head, mn, mx, cached, hF, hFF', hfed, hw, rfl, hle, hh, hall⟩ :=
        hwalked.cacheOnly harc (hp.keyed hcap hlinear)
      have hasks : ∀ {a k : ℕ}, a ≤ h →
          (Phase.streaming pos (some h) (cached.map (cachedResponse prost head))).AsksBy k →
          a ≤ k := by
        rintro a k ha ⟨_, heq, hk⟩
        obtain rfl := Option.some.inj heq
        exact ha.trans hk
      rcases Nat.lt_or_ge mx h with hlt | hge
      · -- at the tip: nothing is filtered
        obtain rfl := eq_nil_of_range' hh hlt
        obtain ⟨n, hnew, hbelow⟩ := live_taken hlinear hsound hpos hrows
        obtain ⟨-, htip⟩ := hlinear.tip_eq (hFF'.trans (hfed.trans p.fed_prefix_outs)) hcap hw
        have hprele := length_accepted_le hF
        exact ⟨_, n, hnew, fun _ => hasks (by omega), hbelow⟩
      · obtain ⟨n, hnew, hbelow⟩ :=
          backfill_taken hcap hlinear hsound hpos hF hFF' hfed hw hge hh hall hrows
        exact ⟨h, n, hnew, fun _ => hasks le_rfl, hbelow⟩
  | _ =>
    obtain rfl := List.prefix_nil.1 hrows
    exact ⟨0, 0, rfl, fun _ _ => Nat.zero_le _, fun _ hr => (List.not_mem_nil hr).elim⟩

/-! ### All calls -/

/-- A backfill in two parts ends where the second does. -/
theorem lastBackfillHeight_append {rows rows' : List Response} (h : rows' ≠ []) :
    lastBackfillHeight (rows ++ rows') = lastBackfillHeight rows' := by
  rw [lastBackfillHeight, List.getLast?_append_of_ne_nil _ h, lastBackfillHeight]

/-- A backfill that has responses has a last height. -/
theorem exists_lastBackfillHeight {rows : List Response} (h : ∀ r ∈ rows, r.Placed)
    (hne : rows ≠ []) : ∃ last, lastBackfillHeight rows = some last := by
  obtain ⟨m, -, hm, -⟩ := h _ (List.getLast_mem hne)
  refine ⟨m.num, ?_⟩
  rw [lastBackfillHeight, List.getLast?_eq_some_getLast hne, Option.bind_some, hm]
  rfl

/-- The consumer misses nothing: what it took has no gap, and its call joins on. -/
structure World.Returning (w : World) : Prop where
  idle : w.session = none → w.received = []
  gapless : ∀ last, lastBackfillHeight w.received = some last →
    Gapless (newHeights w.received) last
  accepted : ∀ r ∈ w.received, r.Accepted w.pipeline.outs
  asks : ∀ s last, w.session = some s → lastBackfillHeight w.received = some last →
    s.AsksBy (last + 1)

namespace World

variable {w w' : World} {a : Action}

/-- **What a consumer took has no gap**, wherever it drops its call. -/
theorem Returning.taken (h : w.Returning) (hok : w.Ok prost capacity) (hplaced : w.Placed)
    (hcap : 0 < capacity) (harc : w.pipeline.archive = none) (hlinear : Linear w.pipeline.outs)
    (hsound : Replay.MarkSound [] (w.pipeline.outs.map Output.event)) (taken : ℕ) :
    (∀ last, lastBackfillHeight (w.received ++ (w.delivered prost).take taken) = some last →
      Gapless (newHeights (w.received ++ (w.delivered prost).take taken)) last) ∧
    ∀ r ∈ w.received ++ (w.delivered prost).take taken, r.Accepted w.pipeline.outs := by
  cases hsession : w.session with
  | none =>
    have hnil : (w.delivered prost).take taken = [] := by simp [World.delivered, hsession]
    rw [hnil, List.append_nil]
    exact ⟨h.gapless, h.accepted⟩
  | some s =>
    have hrows : (w.delivered prost).take taken <+: s.delivered prost w.pipeline.log := by
      simp only [World.delivered, hsession, Option.map_some, Option.getD_some]
      exact List.take_prefix _ _
    obtain ⟨a, n, hnew, hasks, hall⟩ :=
      (hok.session s hsession).taken hok.pipeline hcap harc hlinear hsound hrows
    refine ⟨fun last hlast => ?_, List.forall_mem_append.2 ⟨h.accepted, fun r hr => (hall r hr).2⟩⟩
    rcases List.eq_nil_or_concat' ((w.delivered prost).take taken) with hnil | ⟨init, r, hinit⟩
    · rw [hnil, List.append_nil] at hlast ⊢
      exact h.gapless last hlast
    have hne : (w.delivered prost).take taken ≠ [] := by simp [hinit]
    have hlt : last < a + n := by
      rw [lastBackfillHeight_append hne, hinit, lastBackfillHeight, List.getLast?_concat] at hlast
      obtain ⟨m, hm, rfl⟩ := Option.map_eq_some_iff.1 hlast
      exact (hall r (by simp [hinit])).1 m hm
    rw [newHeights_append, hnew]
    rcases List.eq_nil_or_concat' w.received with hnil | ⟨before, r', hreceived⟩
    · rw [hnil]
      exact gapless_range' hlt
    · obtain ⟨last₀, hlast₀⟩ := exists_lastBackfillHeight hplaced.received (by simp [hreceived])
      exact (h.gapless last₀ hlast₀).append_range' (hasks _ (h.asks s last₀ hsession hlast₀)) hlt

/-- **One step of any task, of the handler or of the consumer** on a linear chain: what was
taken stays without a gap, and what the call will deliver goes on from it. -/
theorem Returning.step (h : w.Returning) (hok : w.Ok prost capacity) (hplaced : w.Placed)
    (hcap : 0 < capacity) (harc : w.pipeline.archive = none) (hlinear : Linear w.pipeline.outs)
    (hsound : Replay.MarkSound [] (w.pipeline.outs.map Output.event))
    (hs : w.step prost a = some w') : w'.Returning := by
  have hmono : ∀ r ∈ w.received, r.Accepted w'.pipeline.outs := fun r hr =>
    (h.accepted r hr).mono (hok.step hs).2.outs
  have hcalls : ∀ {s : Phase} {rows : List Response}, some s = none → rows = [] :=
    fun hnone => (Option.some_ne_none _ hnone).elim
  cases moves_of_step hs with
  | task => exact ⟨h.idle, h.gapless, hmono, h.asks⟩
  | connect req hidle =>
    refine ⟨hcalls, h.gapless, hmono, fun s last _ hlast => ?_⟩
    rw [show w.received = [] from h.idle hidle] at hlast
    cases hlast
  | advance hsession hadv =>
    refine ⟨hcalls, h.gapless, hmono, fun s last hs' hlast => ?_⟩
    obtain rfl := Option.some.inj hs'
    exact (h.asks _ last hsession hlast).advance hadv
  | reconnect taken =>
    obtain ⟨hgapless, haccepted⟩ := h.taken hok hplaced hcap harc hlinear hsound taken
    obtain ⟨r, m, hlast, hm, hsession⟩ := hplaced.reconnect hs
    refine ⟨hcalls, hgapless, haccepted, fun s last hs' hheight => ?_⟩
    obtain rfl := Option.some.inj (hsession.symm.trans hs')
    rw [lastBackfillHeight, hlast, Option.bind_some, hm] at hheight
    obtain rfl := Option.some.inj hheight
    exact ⟨_, rfl, Nat.min_le_left _ _⟩

/-- **Every run of a consumer that comes back**, on a linear chain without an archive. -/
theorem returning_of_run {config : ReorgConfig} {acts : List Action} {w₀ : World}
    (hinit : World.init config capacity none = some w₀)
    (hrun : Run.exec (World.step prost) w₀ acts = some w) (hlinear : Linear w.pipeline.outs)
    (hsound : Replay.MarkSound [] (w.pipeline.outs.map Output.event)) :
    w.Ok prost capacity ∧ w.Placed ∧ w.pipeline.archive = none ∧ 0 < capacity ∧ w.Returning := by
  obtain ⟨hok₀, hcap, harc₀⟩ : w₀.Ok prost capacity ∧ _ := World.ok_init hinit
  have hidle : w₀.session = none ∧ w₀.received = [] := by
    obtain ⟨p, -, rfl⟩ := Option.map_eq_some_iff.1 hinit
    exact ⟨rfl, rfl⟩
  have hstart : w₀.Returning := by
    refine ⟨fun _ => hidle.2, fun last hlast => ?_, fun r hr => ?_, fun s last hs => ?_⟩
    · rw [hidle.2] at hlast
      cases hlast
    · rw [hidle.2] at hr
      cases hr
    · rw [hidle.1] at hs
      cases hs
  have hall : w.Ok prost capacity ∧ w.Placed ∧ w.pipeline.archive = none ∧
      (w.pipeline.outs <+: w.pipeline.outs → w.Returning) := by
    refine Run.exec_preserves (I := fun v : World => v.Ok prost capacity ∧ v.Placed ∧
      v.pipeline.archive = none ∧ (v.pipeline.outs <+: w.pipeline.outs → v.Returning))
      ?_ ⟨hok₀, placed_init hinit (fun _ h => by cases h), harc₀, fun _ => hstart⟩ hrun
    rintro v a v' ⟨hok, hplaced, harc, hret⟩ hs
    obtain ⟨hok', hext⟩ := hok.step hs
    refine ⟨hok', hplaced.step hs fun hsome => ?_, ?_, fun hprefix => ?_⟩
    · rw [harc] at hsome
      cases hsome
    · exact Option.not_isSome_iff_eq_none.1 (by rw [hext.archive, harc]; simp)
    · have hv := hext.outs.trans hprefix
      refine (hret hv).step hok hplaced hcap harc (hlinear.of_isPrefix hv) ?_ hs
      obtain ⟨rest, hrest⟩ := hv
      rw [← hrest, List.map_append, Replay.markSound_append] at hsound
      exact hsound.1
  exact ⟨hall.1, hall.2.1, hall.2.2.1, hcap, hall.2.2.2 List.prefix_rfl⟩

end World

/-- **At least once.**  On a linear chain, whatever the interleaving, and however often and
wherever the consumer drops its call and comes back with the cursor of the last response it
took: of the blocks accepted, from the height of any it was given as new to the height of the
last response, it was given every one as new. -/
theorem at_least_once (prost : Prost) (config : ReorgConfig) (capacity : ℕ) (acts : List Action)
    (w₀ w : World) (taken last : ℕ) (hinit : World.init config capacity none = some w₀)
    (hrun : Run.exec (World.step prost) w₀ acts = some w) (hlinear : Linear w.pipeline.outs)
    (hlast : lastBackfillHeight (w.received ++ (w.delivered prost).take taken) = some last) :
    ∀ n ∈ newHeights (w.received ++ (w.delivered prost).take taken),
      ∀ b ∈ accepted w.pipeline.outs, n ≤ b.height → b.height ≤ last →
        ∃ r ∈ w.received ++ (w.delivered prost).take taken, r.event = .push (shown b) := by
  obtain ⟨calls, hcalls⟩ := World.exists_calls hinit hrun
  have hsound := (markReached_of_runFresh hcalls).sound
  obtain ⟨hok, hplaced, harc, hcap, hret⟩ := World.returning_of_run hinit hrun hlinear hsound
  obtain ⟨hgapless, haccepted⟩ := hret.taken hok hplaced hcap harc hlinear hsound taken
  intro n hn b hb hnb hble
  obtain ⟨r, hr, hnum⟩ := List.mem_filterMap.1 (hgapless last hlast n hn b.height hnb hble)
  obtain ⟨hr, hnew⟩ := List.mem_filter.1 hr
  obtain ⟨m, hm, hmb⟩ := Option.map_eq_some_iff.1 hnum
  have hevent : r.event = .push ⟨m.num, m.id, m.parentId⟩ := by
    simp only [Response.event, hm, of_decide_eq_true hnew]
  obtain ⟨b', hb', hshown⟩ := haccepted r hr _ hevent
  obtain rfl := hlinear.eq_of_height hb' hb ((congrArg Shown.num hshown).trans hmb)
  exact ⟨r, hr, hevent.trans (congrArg _ hshown.symm)⟩

/-- The call of `overlap` is dropped after two blocks, and the next one has the third. -/
def comesBack : List Action :=
  overlap ++ [.reconnect 2, .advance, .advance, .advance, .advance, .advance]

/-- The consumer drops its call after block 2 and comes back: it is given 1, 2 and 3 as new,
each with the block that was accepted. -/
theorem at_least_once_comesBack :
    ∃ w₀ w, World.init ⟨4, 1⟩ 8 none = some w₀ ∧
      Run.exec (World.step (prostOf [])) w₀ comesBack = some w ∧ Linear w.pipeline.outs ∧
      newHeights (w.received ++ (w.delivered (prostOf [])).take 1) = [1, 2, 3] ∧
      ∀ n ∈ newHeights (w.received ++ (w.delivered (prostOf [])).take 1),
        ∀ b ∈ accepted w.pipeline.outs, n ≤ b.height → b.height ≤ 3 →
          ∃ r ∈ w.received ++ (w.delivered (prostOf [])).take 1, r.event = .push (shown b) :=
  ⟨_, _, rfl, rfl, by decide, rfl,
    at_least_once (prostOf []) ⟨4, 1⟩ 8 comesBack _ _ 1 3 rfl rfl (by decide) rfl⟩

end Firehose
end Lightcycle
