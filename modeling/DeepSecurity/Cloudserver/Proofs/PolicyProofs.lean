import DeepSecurity.Cloudserver.Policy
import DeepSecurity.Lib.RoundRobin

/-!
# Fairness of the choice

A call moves one counter by one and returns the place of the new value, so that the number of times a
position has been returned is the number of turns it had while the counter of its list moved.
-/

namespace Cloudserver

namespace Config

open RoundRobin

variable {σ : Type} {c : Config σ} {s : Counters} {filetype : String}

/-- What a call can do. -/
theorem getValidServer_cases (h : c.rule ≠ .other) (filetype : String) (s : Counters) :
    ∃ l, c.getValidServer filetype s = c.next l s := by
  unfold getValidServer
  split
  · exact ⟨.common, rfl⟩
  · split_ifs
    · exact ⟨.exe, rfl⟩
    · exact ⟨.pdf, rfl⟩
    · exact ⟨.doc, rfl⟩
    · exact ⟨.common, rfl⟩
  · next hother => exact absurd hother h

theorem length_pos (c : Config σ) (l : ServerList) : 0 < (c.servers l).length :=
  List.length_pos_of_ne_nil (c.servers_ne l)

theorem served_next (l : ServerList) (s : Counters) : ((c.next l s).1.bind c.serverAt).isSome := by
  have hlt := Nat.mod_lt (s l + 1) (c.length_pos l)
  simp only [next, serverAt, Option.bind_some]
  rw [List.getElem?_eq_getElem hlt]
  rfl

/-- The step: a position of `l` has a turn exactly if the counter of `l` moves to its place. -/
theorem turns_next (l k : ServerList) (s : Counters) (i : ℕ) :
    turns (c.servers l).length i ((c.next k s).2 l) =
      (if (c.next k s).1 = some (l, i) then 1 else 0) + turns (c.servers l).length i (s l) := by
  unfold next
  by_cases hk : k = l
  · subst hk
    simp only [Function.update_self, turns_succ, Option.some.injEq, Prod.mk.injEq, true_and]
    exact Nat.add_comm _ _
  · have hne : ¬ (some (k, (s k + 1) % (c.servers k).length) = some (l, i)) := by
      simp [hk]
    simp only [if_neg hne, Function.update_of_ne (Ne.symm hk), Nat.zero_add]

theorem le_next (l k : ServerList) (s : Counters) : s l ≤ (c.next k s).2 l := by
  unfold next
  by_cases hk : k = l
  · subst hk
    simp
  · simp [Function.update_of_ne (Ne.symm hk)]

/-- The run: the calls return a position as often as it has a turn between the values of the counter. -/
theorem count_calls (h : c.rule ≠ .other) (filetypes : List String) (s : Counters) (l : ServerList)
    (i : ℕ) :
    turns (c.servers l).length i ((c.calls s filetypes).2 l) =
      (c.calls s filetypes).1.count (some (l, i)) + turns (c.servers l).length i (s l) := by
  induction filetypes generalizing s with
  | nil => simp [calls]
  | cons filetype rest ih =>
    obtain ⟨k, hk⟩ := getValidServer_cases h filetype s
    have hstep := turns_next (c := c) l k s i
    have hrest := ih (c.next k s).2
    simp only [calls, hk, List.count_cons, beq_iff_eq]
    omega

theorem le_calls (h : c.rule ≠ .other) (filetypes : List String) (s : Counters) (l : ServerList) :
    s l ≤ (c.calls s filetypes).2 l := by
  induction filetypes generalizing s with
  | nil => exact le_refl _
  | cons filetype rest ih =>
    obtain ⟨k, hk⟩ := getValidServer_cases h filetype s
    simp only [calls, hk]
    exact (le_next l k s).trans (ih _)

theorem served_calls (h : c.rule ≠ .other) (filetypes : List String) (s : Counters) :
    ∀ position ∈ (c.calls s filetypes).1, (position.bind c.serverAt).isSome := by
  induction filetypes generalizing s with
  | nil => simp [calls]
  | cons filetype rest ih =>
    obtain ⟨k, hk⟩ := getValidServer_cases h filetype s
    simp only [calls, hk, List.forall_mem_cons]
    exact ⟨served_next k s, ih _⟩

/-- Both rules are fair along every sequence of calls. -/
theorem fair_calls (h : c.rule ≠ .other) (filetypes : List String) : c.Fair filetypes where
  served := served_calls h filetypes .start
  balanced l i j hi hj := by
    have hmove := turns_balanced hi hj (le_calls h filetypes .start l)
    have hcounti := count_calls h filetypes .start l i
    have hcountj := count_calls h filetypes .start l j
    unfold returned
    omega

/-- Five calls with two servers for programs and one for everything else. -/
theorem fair_calls_five :
    Fair ⟨.filetype, fun l => if l = .exe then ["a", "b"] else ["c"],
      by intro l; cases l <;> simp⟩ ["exe", "url", "exe", "pdf", "exe"] :=
  fair_calls (by simp) _

end Config

end Cloudserver
