import TwoLevel.Proofs.Session.Answers

/-!
# Histories of a session

This file proves that failed requests leave no trace in a session. A history lists the requests of
a run with their answers. The kept text and the number of hits are described in terms of the history
alone: the text is that of the last request that did not fail, and a hit is a request for the text
that was kept when it was made.

## Main definitions

- `Session.history` — the requests of a run with their answers
- `History.current?`, `History.repeats` — the kept text and the number of hits, read off a history

## Main statements

- `Session.Consistent.run_unfailed` — the run without the failed requests
- `Session.follows_history` — a session agrees with its history
- `session_failures` — failed requests leave no trace, and hits are repeated requests
-/

namespace TwoLevel

/-- Requests in the order in which they were made, each with its answer. -/
abbrev History := List (Request × Answer)

namespace History

/-- The part of a history that did not fail. -/
def unfailed (h : History) : History := h.filter fun e => !e.2.failed

/-- The text of the last request that did not fail; none if there is no such request, or if it was
to clear the session. -/
def current? (h : History) : Option (List Char) := h.unfailed.getLast?.bind fun e => e.1.text?

/-- The number of requests about the text that was current when they were made. -/
def repeats (h : History) : Nat :=
  (List.range h.length).countP fun i =>
    (h[i]?.bind fun e => e.1.text?).any fun text => current? (h.take i) = some text

variable {h : History} {e : Request × Answer}

theorem unfailed_cons_of_failed (he : e.2.failed = true) : unfailed (e :: h) = unfailed h := by
  rw [unfailed, List.filter_cons_of_neg (by simp [he]), unfailed]

theorem unfailed_cons (he : e.2.failed = false) : unfailed (e :: h) = e :: unfailed h := by
  rw [unfailed, List.filter_cons_of_pos (by simp [he]), unfailed]

theorem current?_concat_of_failed (he : e.2.failed = true) : current? (h ++ [e]) = current? h := by
  rw [current?, unfailed, List.filter_append, List.filter_cons_of_neg (by simp [he]),
    List.filter_nil, List.append_nil, current?, unfailed]

theorem current?_concat (he : e.2.failed = false) : current? (h ++ [e]) = e.1.text? := by
  rw [current?, unfailed, List.filter_append, List.filter_cons_of_pos (by simp [he]),
    List.filter_nil, List.getLast?_concat, Option.bind_some]

theorem repeats_concat (h : History) (e : Request × Answer) :
    repeats (h ++ [e]) =
      repeats h + if e.1.text?.any (fun text => current? h = some text) then 1 else 0 := by
  have hbefore : (List.range h.length).countP (fun i => ((h ++ [e])[i]?.bind fun e => e.1.text?).any
      fun text => current? ((h ++ [e]).take i) = some text) = repeats h := by
    refine List.countP_congr fun i hi => ?_
    have hlt : i < h.length := List.mem_range.1 hi
    rw [List.getElem?_append_left hlt, List.take_append_of_le_length hlt.le]
  rw [repeats, List.length_append, List.length_singleton, List.range_succ, List.countP_append,
    hbefore, List.countP_singleton, List.getElem?_concat_length, List.take_left, Option.bind_some]

end History

namespace Session

variable {config : Config} {s : Session}

/-- The requests of a run with their answers. -/
def history (s : Session) (requests : List Request) : History :=
  requests.zip ((s.run requests).map Prod.fst)

theorem history_cons (s : Session) (request : Request) (requests : List Request) :
    s.history (request :: requests) =
      (request, (s.step request).1) :: (s.step request).2.history requests := rfl

theorem history_concat (s : Session) (requests : List Request) (request : Request) :
    s.history (requests ++ [request]) =
      s.history requests ++ [(request, ((s.after requests).step request).1)] := by
  induction requests generalizing s with
  | nil => rfl
  | cons first requests ih =>
    rw [List.cons_append, history_cons, ih, history_cons, after_cons, List.cons_append]

theorem after_concat (s : Session) (requests : List Request) (request : Request) :
    s.after (requests ++ [request]) = ((s.after requests).step request).2 := by
  rw [after, List.foldl_append]
  rfl

namespace Consistent

/-- A request that fails changes nothing. -/
theorem step_of_failed (hs : s.Consistent config) {request : Request}
    (h : (s.step request).1.failed = true) : (s.step request).2 = s := by
  rcases hs.step_cases request with ⟨rfl, -⟩ | ⟨text, htext, ⟨-, -, hstep⟩ | ⟨t, ht, -⟩⟩
  · cases h
  · exact hstep
  · rw [hs.fst_step, Request.failed_answer htext, ht] at h
    obtain ⟨fault, hfault⟩ := h
    cases hfault

/-- The requests of a run that do not fail have the same answers, and lead to the same sessions,
when the others are not made. -/
theorem run_unfailed (hs : s.Consistent config) (requests : List Request) :
    s.run ((s.history requests).unfailed.map Prod.fst) =
        (s.run requests).filter (fun p => !p.1.failed) ∧
      s.after ((s.history requests).unfailed.map Prod.fst) = s.after requests := by
  induction requests generalizing s with
  | nil => exact ⟨rfl, rfl⟩
  | cons request requests ih =>
    obtain ⟨hrun, hafter⟩ := ih (hs.step request)
    rw [history_cons]
    by_cases hfailed : (s.step request).1.failed = true
    · rw [hs.step_of_failed hfailed] at hrun hafter
      rw [History.unfailed_cons_of_failed hfailed, hs.step_of_failed hfailed, hrun, hafter,
        run_cons, List.filter_cons_of_neg (by simp [hfailed]), after_cons,
        hs.step_of_failed hfailed]
      exact ⟨rfl, rfl⟩
    · rw [Bool.not_eq_true] at hfailed
      rw [History.unfailed_cons hfailed, List.map_cons, run_cons, hrun, run_cons,
        List.filter_cons_of_pos (by simp [hfailed])]
      exact ⟨rfl, hafter⟩

end Consistent

/-- After any run the kept text is the current one of the history, and the hits are its repeats. -/
theorem follows_history (config : Config) (requests : List Request) :
    ((start config).after requests).last.map Entry.text =
        ((start config).history requests).current? ∧
      ((start config).after requests).hits = ((start config).history requests).repeats := by
  induction requests using List.reverseRecOn with
  | nil => exact ⟨rfl, rfl⟩
  | append_singleton requests request ih =>
    obtain ⟨hcurrent, hhits⟩ := ih
    have hs := (Consistent.start config).after requests
    rw [after_concat, history_concat, History.repeats_concat, hs.fst_step, ← hhits, ← hcurrent]
    rcases hs.step_cases request with ⟨rfl, hstep⟩ | ⟨text, htext, ⟨fault, hfault, hstep⟩ | hkept⟩
    · rw [hstep, History.current?_concat rfl]
      exact ⟨rfl, rfl⟩
    · have hfailed : (request.answer config).failed = true :=
        (Request.failed_answer htext).2 ⟨fault, hfault⟩
      -- The kept text has a table, so it is not the text of a request that fails.
      have hother : ¬((start config).after requests).last.map Entry.text = some text := by
        intro hsame
        obtain ⟨entry, hentry, rfl⟩ := Option.map_eq_some_iff.1 hsame
        rw [hs.table_eq entry hentry] at hfault
        cases hfault
      rw [hstep, History.current?_concat_of_failed hfailed, htext, Option.any_some,
        decide_eq_false hother, if_neg Bool.false_ne_true, Nat.add_zero]
      exact ⟨hcurrent, rfl⟩
    · obtain ⟨t, ht, hstep⟩ := hkept
      have hfailed : (request.answer config).failed = false := by
        rw [← Bool.not_eq_true, Request.failed_answer htext, ht]
        simp
      rw [hstep, History.current?_concat hfailed, htext]
      refine ⟨rfl, ?_⟩
      rw [keep]
      cases ((start config).after requests).last with
      | none => simp
      | some entry => by_cases hsame : entry.text = text <;> simp [hsame]

end Session

/-- Failed requests leave no trace. A request that fails after any run leaves the session as it is.
When the failed requests of a run are not made, the others have the same answers and lead to the
same sessions, and so does the run as a whole. The number of hits after a run is the number of
requests about the text of the last request before them that did not fail, unless the session was
cleared since. -/
theorem session_failures (config : Config) (requests : List Request) :
    (∀ request, (((Session.start config).after requests).step request).1.failed = true →
      (((Session.start config).after requests).step request).2 =
        (Session.start config).after requests) ∧
    (Session.start config).run (((Session.start config).history requests).unfailed.map Prod.fst) =
      ((Session.start config).run requests).filter (fun p => !p.1.failed) ∧
    (Session.start config).after (((Session.start config).history requests).unfailed.map Prod.fst) =
      (Session.start config).after requests ∧
    ((Session.start config).after requests).hits =
      ((Session.start config).history requests).repeats := by
  have hstart := Session.Consistent.start config
  obtain ⟨hrun, hafter⟩ := hstart.run_unfailed requests
  refine ⟨fun request => (hstart.after requests).step_of_failed, hrun, hafter, ?_⟩
  exact (Session.follows_history config requests).2

/-- A request that is refused between two requests for the same text. -/
theorem session_failures_refused :
    (((Session.start {}).after [.table ['a'], .table ['a']]).step
        (.simplify ['b', '+'])).1.failed = true ∧
      (((Session.start {}).after [.table ['a'], .table ['a']]).step (.simplify ['b', '+'])).2 =
        (Session.start {}).after [.table ['a'], .table ['a']] ∧
      ((Session.start {}).history [.table ['a'], .simplify ['b', '+'], .table ['a']]).repeats =
        1 := by
  have hrun := session_failures {} [.table ['a'], .table ['a']]
  have hhits := (session_failures {} [.table ['a'], .simplify ['b', '+'], .table ['a']]).2.2.2
  exact ⟨rfl, hrun.1 _ rfl, hhits.symm.trans rfl⟩

end TwoLevel
