/-
# A bounded broadcast channel

A channel that keeps the last `size` values sent, for any number of receivers.  Everything sent is
a list, and a receiver is a position in it: it receives what is sent after it subscribed, in
order, each value once.  A receiver that is further behind than what is kept is told so once, with
the number of values it missed, and goes on at the oldest value kept (`recv`).

What a receiver took since it subscribed is a stretch of what was sent since then, up to the first
time it lags (`take_drop_succ`).
-/

import Mathlib.Data.List.Basic

namespace Lightcycle
namespace Broadcast

variable {α : Type*} {size next next' n : ℕ} {sent sent' : List α} {x : α}

/-- One receipt at position `next`, `none` when nothing is there: a value, or the number of values
missed; and the next position. -/
def recv (size : ℕ) (sent : List α) (next : ℕ) : Option (Except ℕ α × ℕ) :=
  if next + size < sent.length then
    some (.error (sent.length - size - next), sent.length - size)
  else sent[next]?.map fun x => (.ok x, next + 1)

/-- A receiver that is not behind gets the next value. -/
theorem recv_eq_ok : recv size sent next = some (.ok x, next') ↔
    sent.length ≤ next + size ∧ sent[next]? = some x ∧ next' = next + 1 := by
  unfold recv
  split_ifs with hlag
  · simp only [Option.some.injEq, Prod.mk.injEq, reduceCtorEq, false_and, false_iff]
    omega
  · simp only [Option.map_eq_some_iff, Prod.mk.injEq, Except.ok.injEq]
    constructor
    · rintro ⟨y, hy, rfl, rfl⟩
      exact ⟨by omega, hy, rfl⟩
    · rintro ⟨-, hx, rfl⟩
      exact ⟨x, hx, rfl, rfl⟩

/-- **A receiver that lags** is told how many values it missed, and is as far behind as it can
be without missing more. -/
theorem recv_eq_error : recv size sent next = some (.error n, next') ↔
    0 < n ∧ next' = next + n ∧ next' + size = sent.length := by
  unfold recv
  split_ifs with hlag
  · simp only [Option.some.injEq, Prod.mk.injEq, Except.error.injEq]
    omega
  · simp only [Option.map_eq_some_iff, Prod.mk.injEq, reduceCtorEq, false_and, and_false,
      exists_false, false_iff]
    omega

/-- What a receiver took, and the value it takes next. -/
theorem take_drop_succ {pos k : ℕ} (h : sent[pos + k]? = some x) :
    (sent.drop pos).take (k + 1) = (sent.drop pos).take k ++ [x] := by
  rw [List.take_add_one, List.getElem?_drop, h]
  rfl

/-- What was taken stays when more is sent. -/
theorem take_drop_of_prefix {pos k : ℕ} (h : sent <+: sent') (hk : pos + k ≤ sent.length) :
    (sent'.drop pos).take k = (sent.drop pos).take k := by
  obtain ⟨rest, rfl⟩ := h
  rw [List.drop_append_of_le_length (by omega),
    List.take_append_of_le_length (by rw [List.length_drop]; omega)]

end Broadcast
end Lightcycle
