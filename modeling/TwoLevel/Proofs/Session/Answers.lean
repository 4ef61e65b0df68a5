import TwoLevel.Proofs.Minimize.Value
import TwoLevel.Proofs.Tabulation
import TwoLevel.Session

/-!
# Answers of a session

This file proves that remembering a table does not change the answers of a session. The invariant
is that the kept table is the one that its text has under the configuration. Under the invariant a
request has one of three effects: it fails and changes nothing, it succeeds and its text is kept, or
it clears the session.

## Main definitions

- `Request.answer` — the answer to a request when nothing is remembered
- `Session.Consistent` — the invariant
- `Session.after` — the session after some requests

## Main statements

- `Minimized.ofText_eq_error_iff` — a text has forms exactly if it has a table
- `Session.Consistent.step_cases` — the three effects of a request
- `session_answers` — every answer is the one without memory
-/

namespace TwoLevel

/-! ### Answers without memory -/

/-- The two forms of the formula that a text denotes. -/
def Minimized.ofText (config : Config) (text : List Char) : Except Fault Minimized := do
  let f ← (Formula.parse text).mapError .parse
  f.minimize config

/-- The answer to a request when nothing is remembered. -/
def Request.answer (config : Config) : Request → Answer
  | .table text => .table (TruthTable.ofText config.limit text)
  | .simplify text => .simplified (Minimized.ofText config text)
  | .clear => .cleared

/-- The text that a request is about. -/
def Request.text? : Request → Option (List Char)
  | .table text => some text
  | .simplify text => some text
  | .clear => none

/-- Whether an answer reports a fault. -/
def Answer.failed : Answer → Bool
  | .table (.error _) => true
  | .simplified (.error _) => true
  | _ => false

variable {config : Config} {text : List Char} {t : TruthTable} {fault : Fault}

namespace TruthTable

theorem ofText_of_parse_error {limit : Nat} {e : ParseError} (h : Formula.parse text = .error e) :
    ofText limit text = .error (.parse e) := by
  rw [ofText, h]
  rfl

theorem ofText_of_parse_ok {f : Formula} (limit : Nat) (h : Formula.parse text = .ok f) :
    ofText limit text = (ofFormula limit f).mapError .evaluation := by
  rw [ofText, h]
  rfl

/-- A table of a text has a letter, since every expression has one. -/
theorem width_pos_of_ofText {limit : Nat} (h : ofText limit text = .ok t) : 0 < t.width := by
  cases hparse : Formula.parse text with
  | error e =>
    rw [ofText_of_parse_error hparse] at h
    cases h
  | ok f =>
    rw [ofText_of_parse_ok limit hparse, ofFormula] at h
    split at h
    · cases h
    · cases h
      exact Formula.size_pos hparse

theorem ofText_ne_minimization {limit : Nat} (e : MinimizeError) :
    ofText limit text ≠ .error (.minimization e) := by
  intro h
  cases hparse : Formula.parse text with
  | error p =>
    rw [ofText_of_parse_error hparse] at h
    cases h
  | ok f =>
    rw [ofText_of_parse_ok limit hparse] at h
    cases htable : ofFormula limit f with
    | error p =>
      rw [htable] at h
      cases h
    | ok t =>
      rw [htable] at h
      cases h

end TruthTable

namespace Minimized

/-- The forms of a text are those of its table. -/
theorem ofText_eq_bind (config : Config) (text : List Char) : ofText config text =
    (TruthTable.ofText config.limit text).bind fun t =>
      (t.minimize config.strategy).mapError .minimization := by
  cases h : Formula.parse text with
  | error e =>
    rw [ofText, h, TruthTable.ofText_of_parse_error h]
    rfl
  | ok f =>
    rw [TruthTable.ofText_of_parse_ok config.limit h]
    have hforms : ofText config text = f.minimize config := by
      rw [ofText, h]
      rfl
    rw [hforms, Formula.minimize]
    cases TruthTable.ofFormula config.limit f <;> rfl

theorem exists_ofText (h : TruthTable.ofText config.limit text = .ok t) :
    ∃ m, ofText config text = .ok m := by
  obtain ⟨m, hm, -⟩ := exists_ofPartitionIn (TruthTable.width_pos_of_ofText h) t.isPartition
    .listed config.strategy
  refine ⟨m, ?_⟩
  rw [ofText_eq_bind, h]
  exact congrArg (Except.mapError Fault.minimization) hm

theorem ofText_eq_error (h : TruthTable.ofText config.limit text = .error fault) :
    ofText config text = .error fault := by
  rw [ofText_eq_bind, h]
  rfl

/-- A text has no forms exactly if it has no table, and for the same reason. -/
theorem ofText_eq_error_iff :
    ofText config text = .error fault ↔ TruthTable.ofText config.limit text = .error fault := by
  refine ⟨fun h => ?_, ofText_eq_error⟩
  cases htable : TruthTable.ofText config.limit text with
  | error e =>
    rw [ofText_eq_error htable, Except.error.injEq] at h
    rw [h]
  | ok t =>
    obtain ⟨m, hm⟩ := exists_ofText htable
    rw [hm] at h
    cases h

end Minimized

/-- A request fails without memory exactly if its text has no table. -/
theorem Request.failed_answer {request : Request} (h : request.text? = some text) :
    (request.answer config).failed = true ↔
      ∃ fault, TruthTable.ofText config.limit text = .error fault := by
  cases request with
  | table text =>
    cases h
    rw [answer]
    cases TruthTable.ofText config.limit text <;> simp [Answer.failed]
  | simplify text =>
    cases h
    simp only [answer, ← Minimized.ofText_eq_error_iff]
    cases Minimized.ofText config text <;> simp [Answer.failed]
  | clear => cases h

/-! ### One request -/

namespace Session

/-- A session under a configuration whose kept table is the one that its text has. -/
structure Consistent (config : Config) (s : Session) : Prop where
  config_eq : s.config = config
  table_eq : ∀ entry, s.last = some entry →
    TruthTable.ofText config.limit entry.text = .ok entry.table

/-- The session after a successful request about a text: the table is kept, and it is a hit if it
was kept before. -/
def keep (s : Session) (text : List Char) (t : TruthTable) : Session :=
  { s with
    last := some ⟨text, t⟩
    hits := if s.last.any (·.text = text) then s.hits + 1 else s.hits }

variable {s : Session}

namespace Consistent

theorem start (config : Config) : (start config).Consistent config :=
  ⟨rfl, fun _ h => by cases h⟩

theorem clear (hs : s.Consistent config) : s.clear.Consistent config :=
  ⟨hs.config_eq, fun _ h => by cases h⟩

theorem keep (hs : s.Consistent config) (h : TruthTable.ofText config.limit text = .ok t) :
    (s.keep text t).Consistent config := by
  refine ⟨hs.config_eq, fun entry hentry => ?_⟩
  cases hentry
  exact h

theorem table_of_ok (hs : s.Consistent config)
    (h : TruthTable.ofText config.limit text = .ok t) : s.table text = (.ok t, s.keep text t) := by
  rw [table, kept?, Session.keep]
  cases hlast : s.last with
  | none => simp [hs.config_eq, h]
  | some entry =>
    by_cases htext : entry.text = text
    · -- The kept table is the table of the text, so keeping it again changes nothing.
      have htable : entry.table = t := by
        have hkept := hs.table_eq entry hlast
        rw [htext, h, Except.ok.injEq] at hkept
        exact hkept.symm
      have hentry : entry = ⟨text, t⟩ := by rw [← htext, ← htable]
      simp [hentry]
    · simp [htext, hs.config_eq, h]

theorem table_of_error (hs : s.Consistent config)
    (h : TruthTable.ofText config.limit text = .error fault) :
    s.table text = (.error fault, s) := by
  have hkept : s.kept? text = none := by
    rw [kept?]
    cases hlast : s.last with
    | none => rfl
    | some entry =>
      refine if_neg fun htext => ?_
      have hkept := hs.table_eq entry hlast
      rw [htext, h] at hkept
      cases hkept
  rw [table, hkept, hs.config_eq, h]

/-- The answers of a session to requests about a text. -/
theorem fst_table (hs : s.Consistent config) (text : List Char) :
    (s.table text).1 = TruthTable.ofText config.limit text := by
  cases h : TruthTable.ofText config.limit text with
  | error fault => rw [hs.table_of_error h]
  | ok t => rw [hs.table_of_ok h]

theorem fst_simplify (hs : s.Consistent config) (text : List Char) :
    (s.simplify text).1 = Minimized.ofText config text := by
  have hconfig : (s.table text).2.config = config := by
    cases h : TruthTable.ofText config.limit text with
    | error fault => rw [hs.table_of_error h, hs.config_eq]
    | ok t => rw [hs.table_of_ok h, (hs.keep h).config_eq]
  rw [Minimized.ofText_eq_bind, ← hs.fst_table, ← hconfig]
  rfl

/-- The answer to a request is the one without memory. -/
theorem fst_step (hs : s.Consistent config) (request : Request) :
    (s.step request).1 = request.answer config := by
  cases request with
  | table text => exact congrArg Answer.table (hs.fst_table text)
  | simplify text => exact congrArg Answer.simplified (hs.fst_simplify text)
  | clear => rfl

/-- A request clears the session, or its text has no table and nothing changes, or the table of its
text is kept. -/
theorem step_cases (hs : s.Consistent config) (request : Request) :
    (request = .clear ∧ (s.step request).2 = s.clear) ∨
    ∃ text, request.text? = some text ∧
      ((∃ fault, TruthTable.ofText config.limit text = .error fault ∧ (s.step request).2 = s) ∨
      ∃ t, TruthTable.ofText config.limit text = .ok t ∧ (s.step request).2 = s.keep text t) := by
  have heffect : ∀ text, (s.step request).2 = (s.table text).2 →
      (∃ fault, TruthTable.ofText config.limit text = .error fault ∧ (s.step request).2 = s) ∨
      ∃ t, TruthTable.ofText config.limit text = .ok t ∧ (s.step request).2 = s.keep text t := by
    intro text hstep
    cases h : TruthTable.ofText config.limit text with
    | error fault => exact .inl ⟨fault, rfl, by rw [hstep, hs.table_of_error h]⟩
    | ok t => exact .inr ⟨t, rfl, by rw [hstep, hs.table_of_ok h]⟩
  cases request with
  | table text => exact .inr ⟨text, rfl, heffect text rfl⟩
  | simplify text => exact .inr ⟨text, rfl, heffect text rfl⟩
  | clear => exact .inl ⟨rfl, rfl⟩

theorem step (hs : s.Consistent config) (request : Request) :
    (s.step request).2.Consistent config := by
  rcases hs.step_cases request with ⟨-, hstep⟩ | ⟨text, -, ⟨-, -, hstep⟩ | ⟨t, ht, hstep⟩⟩
  · rw [hstep]
    exact hs.clear
  · rw [hstep]
    exact hs
  · rw [hstep]
    exact hs.keep ht

end Consistent

/-! ### Runs -/

/-- The session after some requests. -/
def after (s : Session) (requests : List Request) : Session :=
  requests.foldl (fun s request => (s.step request).2) s

theorem run_cons (s : Session) (request : Request) (requests : List Request) :
    s.run (request :: requests) = s.step request :: (s.step request).2.run requests := rfl

theorem after_cons (s : Session) (request : Request) (requests : List Request) :
    s.after (request :: requests) = (s.step request).2.after requests := rfl

theorem Consistent.after (hs : s.Consistent config) (requests : List Request) :
    (s.after requests).Consistent config := by
  induction requests generalizing s with
  | nil => exact hs
  | cons request requests ih =>
    rw [after_cons]
    exact ih (hs.step request)

theorem Consistent.map_fst_run (hs : s.Consistent config) (requests : List Request) :
    (s.run requests).map Prod.fst = requests.map (Request.answer config) := by
  induction requests generalizing s with
  | nil => rfl
  | cons request requests ih =>
    rw [run_cons, List.map_cons, List.map_cons, hs.fst_step, ih (hs.step request)]

end Session

/-- Remembering is transparent. In a run of a new session all answers are those without memory.
After any run the kept table is the one of its text, a request for the table of a text and a request
for its forms are answered as without memory, and they fail for the same texts and reasons; no text
fails for a reason of minimization. -/
theorem session_answers (config : Config) (requests : List Request) :
    ((Session.start config).run requests).map Prod.fst = requests.map (Request.answer config) ∧
    (∀ entry, ((Session.start config).after requests).last = some entry →
      TruthTable.ofText config.limit entry.text = .ok entry.table) ∧
    ∀ text,
      (((Session.start config).after requests).table text).1 =
        TruthTable.ofText config.limit text ∧
      (((Session.start config).after requests).simplify text).1 =
        Minimized.ofText config text ∧
      (∀ fault, (((Session.start config).after requests).simplify text).1 = .error fault ↔
        (((Session.start config).after requests).table text).1 = .error fault) ∧
      ∀ e, (((Session.start config).after requests).simplify text).1 ≠
        .error (.minimization e) := by
  have hs := (Session.Consistent.start config).after requests
  refine ⟨(Session.Consistent.start config).map_fst_run requests, hs.table_eq, fun text => ?_⟩
  rw [hs.fst_table, hs.fst_simplify]
  refine ⟨rfl, rfl, fun fault => Minimized.ofText_eq_error_iff, fun e h => ?_⟩
  exact TruthTable.ofText_ne_minimization e (Minimized.ofText_eq_error_iff.1 h)

/-- The table of one text is kept when a second text is refused, and is replaced by that of a third
one. -/
theorem session_answers_replaced :
    ∃ entry, ((Session.start {}).after
        [.table ['a'], .simplify ['b', '+'], .table ['b', '.', 'a']]).last = some entry ∧
      entry.text = ['b', '.', 'a'] ∧ TruthTable.ofText 20 entry.text = .ok entry.table :=
  ⟨_, rfl, rfl, (session_answers {} [.table ['a'], .simplify ['b', '+'],
    .table ['b', '.', 'a']]).2.1 _ rfl⟩

end TwoLevel
