import DeferredWork.Proofs.Transaction.LostUpdate

set_option autoImplicit false

/-!
# Disciplines

A discipline says which questions an interaction may ask, given the rows that it has been told of so
far.  The discipline of a body allows changes to be staged (`Discipline.ofStaged`), the discipline
of a routine allows batches to be handed to the store (`Discipline.ofWrites`), and a transaction
passes the one on to the other (`Transaction.obeys_run`): what its body stages becomes a batch that
is guarded by the rows that the body was told of.
-/

namespace DeferredWork

variable {ε : Type → Type} {α β : Type}

/-- Which questions may be asked by whom. -/
structure Discipline (Q : Type → Type 1) where
  /-- The exchange can come about. -/
  possible : Exchange Q → Prop
  /-- The rows that an exchange tells. -/
  rows : Exchange Q → List Job
  /-- The question may be asked by whom these rows were told. -/
  allows : List Job → {β : Type} → Q β → Prop

namespace Interaction

variable {Q : Type → Type 1} {d : Discipline Q}

/-- An interaction that was told of some rows asks only what is allowed, whatever it is told. -/
inductive Obeys (d : Discipline Q) : List Job → Interaction Q α → Prop
  | done {known : List Job} (a : α) : Obeys d known (.done a)
  | abort {known : List Job} (reason : String) : Obeys d known (.abort reason)
  | ask {known : List Job} {β : Type} {q : Q β} {next : β → Interaction Q α}
      (allowed : d.allows known q)
      (rest : ∀ b, d.possible ⟨q, b⟩ → Obeys d (known ++ d.rows ⟨q, b⟩) (next b)) :
      Obeys d known (.ask q next)

/-- A question to which no answer tells of a row leaves what is known as it is. -/
theorem Obeys.ask_of_rows_eq_nil {known : List Job} {q : Q β} {next : β → Interaction Q α}
    (allowed : d.allows known q) (hrows : ∀ b, d.rows ⟨q, b⟩ = [])
    (rest : ∀ b, d.possible ⟨q, b⟩ → (next b).Obeys d known) :
    (Interaction.ask q next).Obeys d known := by
  refine .ask allowed fun b hb => ?_
  rw [hrows b, List.append_nil]
  exact rest b hb

theorem Obeys.bind {known : List Job} {x : Interaction Q α} {f : α → Interaction Q β}
    (h : x.Obeys d known) (hf : ∀ more a, (f a).Obeys d (known ++ more)) :
    (x.bind f).Obeys d known := by
  induction h with
  | @done known a =>
    have hdone := hf [] a
    rw [List.append_nil] at hdone
    exact hdone
  | abort reason => exact .abort reason
  | @ask known _ q next allowed rest ih =>
    refine .ask allowed fun b hb => ih b hb ?_
    intro more a
    rw [List.append_assoc]
    exact hf _ a

end Interaction

/-! ## Routines -/

/-- The rows that the store told. -/
def Exchange.rows : Exchange (Call ε) → List Job
  | ⟨.store (.get _), .ok (some row)⟩ => [row]
  | _ => []

/-- The writes of each batch are allowed by the rows that the store told. -/
def Discipline.ofWrites (P : List Job → Write → Prop) : Discipline (Call ε) where
  possible := Exchange.IsTruthful
  rows := Exchange.rows
  allows known _ q :=
    match q with
    | .store (.apply ws) => ∀ w ∈ ws, P known w
    | _ => True

theorem Discipline.allows_of_isQuiet {P : List Job → Write → Prop} {known : List Job}
    {call : Call ε β} (h : call.isQuiet = true) : (ofWrites P).allows known call := by
  cases call with
  | store call =>
    cases call with
    | apply ws => cases h
    | _ => trivial
  | _ => trivial

/-- A batch that is accepted from a disciplined routine consists of writes that are allowed. -/
theorem Discipline.allows_batch {P : List Job → Write → Prop} {known : List Job} {call : Call ε β}
    (h : (ofWrites P).allows known call) (answer : β) :
    ∀ w ∈ (Event.batch? (.own ⟨call, answer⟩)).toList.flatten, P known w := by
  cases call with
  | store call =>
    cases call with
    | apply ws =>
      cases answer with
      | ok rows =>
        show ∀ w ∈ [ws].flatten, P known w
        rw [List.flatten_singleton]
        exact h
      | error fault => exact List.forall_mem_nil _
    | _ => exact List.forall_mem_nil _
  | _ => exact List.forall_mem_nil _

namespace Routine

variable {P : List Job → Write → Prop}

theorem obeys_notifyAll (known : List Job) (incidents : List Incident) :
    (notifyAll (ε := ε) incidents).Obeys (.ofWrites P) known := by
  induction incidents generalizing known with
  | nil => exact .done ()
  | cons incident incidents ih => exact .ask_of_rows_eq_nil trivial (fun _ => rfl) fun _ _ => ih _

end Routine

/-! ## Bodies -/

/-- The rows that a body found. -/
def Exchange.finds : Exchange (Request ε) → List Job
  | ⟨.find _, .ok (some row)⟩ => [row]
  | _ => []

/-- A row that is found has the name that was asked for. -/
def Exchange.IsFaithful : Exchange (Request ε) → Prop
  | ⟨.find id, .ok (some row)⟩ => row.id = id
  | _ => True

/-- The changes that are staged are allowed by the rows that were found. -/
def Discipline.ofStaged (R : List Job → Staged → Prop) : Discipline (Request ε) where
  possible := Exchange.IsFaithful
  rows := Exchange.finds
  allows seen _ q :=
    match q with
    | .stage change => R seen change
    | _ => True

theorem Discipline.allows_staged {R : List Job → Staged → Prop} {seen : List Job}
    {exchange : Exchange (Request ε)} {change : Staged}
    (h : (ofStaged R).allows seen exchange.question) (hstaged : exchange.staged? = some change) :
    R seen change := by
  obtain ⟨question, answer⟩ := exchange
  cases question with
  | stage staged =>
    cases hstaged
    exact h
  | _ => cases hstaged

theorem Interaction.Obeys.of_stricter {R R' : List Job → Staged → Prop} {seen : List Job}
    {x : Interaction (Request ε) α} (h : x.Obeys (.ofStaged R) seen)
    (hR : ∀ seen change, R seen change → R' seen change) : x.Obeys (.ofStaged R') seen := by
  induction h with
  | done a => exact .done a
  | abort reason => exact .abort reason
  | @ask seen _ q next allowed rest ih =>
    refine .ask ?_ ih
    cases q with
    | stage change => exact hR seen change allowed
    | _ => trivial

namespace Command

variable {R : List Job → Staged → Prop} {seen : List Job}

theorem obeys_pure (a : α) : (pure a : Command ε α).run.Obeys (.ofStaged R) seen := .done _

theorem obeys_throw (e : TransactionError) :
    (throw e : Command ε α).run.Obeys (.ofStaged R) seen := .done _

theorem obeys_bind {x : Command ε α} {f : α → Command ε β} (hx : x.run.Obeys (.ofStaged R) seen)
    (hf : ∀ more a, (f a).run.Obeys (.ofStaged R) (seen ++ more)) :
    (x >>= f).run.Obeys (.ofStaged R) seen := by
  refine Interaction.Obeys.bind hx fun more outcome => ?_
  cases outcome with
  | ok a => exact hf more a
  | error e => exact .done _

/-- Once a row is found, the rest of a command may be guarded by it. -/
theorem obeys_find_bind {id : JobId} {f : Option Job → Command ε α}
    (hnone : (f none).run.Obeys (.ofStaged R) seen)
    (hsome : ∀ row, row.id = id → (f (some row)).run.Obeys (.ofStaged R) (seen ++ [row])) :
    (find id >>= f).run.Obeys (.ofStaged R) seen := by
  refine .ask trivial fun answer hanswer => ?_
  match answer, hanswer with
  | .ok (some row), hrow => exact hsome row hrow
  | .ok none, _ =>
    show Interaction.Obeys _ (seen ++ []) _
    rw [List.append_nil]
    exact hnone
  | .error e, _ => exact .done _

theorem obeys_stage_bind {change : Staged} {f : Unit → Command ε α} (hchange : R seen change)
    (hf : (f ()).run.Obeys (.ofStaged R) seen) :
    (stage change >>= f).run.Obeys (.ofStaged R) seen :=
  .ask_of_rows_eq_nil hchange (fun _ => rfl) fun _ _ => hf

theorem obeys_now_bind {f : Instant → Command ε α}
    (hf : ∀ now, (f now).run.Obeys (.ofStaged R) seen) :
    (ask .now >>= f).run.Obeys (.ofStaged R) seen :=
  .ask_of_rows_eq_nil trivial (fun _ => rfl) fun now _ => hf now

theorem obeys_draw_bind {f : Uuid → Command ε α}
    (hf : ∀ id, (f id).run.Obeys (.ofStaged R) seen) :
    (ask .draw >>= f).run.Obeys (.ofStaged R) seen :=
  .ask_of_rows_eq_nil trivial (fun _ => rfl) fun id _ => hf id

theorem obeys_stage {change : Staged} (hchange : R seen change) :
    (stage (ε := ε) change).run.Obeys (.ofStaged R) seen :=
  .ask_of_rows_eq_nil hchange (fun _ => rfl) fun _ _ => .done _

theorem obeys_ofHandling {handling : Handling ε} (h : handling.run.Obeys (.ofStaged R) seen) :
    (ofHandling handling).run.Obeys (.ofStaged R) seen := by
  refine Interaction.Obeys.bind h fun more outcome => ?_
  cases outcome with
  | ok value => exact .done _
  | error e => exact .done _

end Command

namespace Context

/-- What is observed of each name is the revision of the first row of the name that was found. -/
def Notes (ctx : Context) (seen : List Job) : Prop :=
  ∀ id, ctx.observed? id = (seen.find? fun row => row.id == id).map Job.revision

theorem Notes.observe {ctx : Context} {seen : List Job} (h : ctx.Notes seen) (row : Job) :
    (ctx.observe row).Notes (seen ++ [row]) := by
  intro id
  rw [observed?_observe, h id, List.find?_append, Option.map_or, List.find?_singleton]
  by_cases hid : row.id = id <;> simp [hid]

theorem Serves.notes {ctx ctx' : Context} {seen : List Job} {exchange : Exchange (Request ε)}
    {calls : List (Exchange (Call ε))} (h : ctx.Serves exchange calls ctx')
    (hnotes : ctx.Notes seen) : ctx'.Notes (seen ++ exchange.finds) := by
  cases h with
  | found row => exact hnotes.observe row
  | _ =>
    show Notes _ (seen ++ [])
    rw [List.append_nil]
    exact hnotes

/-- The rows that the calls for a request tell are those that the body finds. -/
theorem Serves.rows {ctx ctx' : Context} {exchange : Exchange (Request ε)}
    {calls : List (Exchange (Call ε))} (h : ctx.Serves exchange calls ctx') :
    calls.flatMap Exchange.rows = exchange.finds := by
  cases h <;> rfl

theorem Serves.faithful {ctx ctx' : Context} {exchange : Exchange (Request ε)}
    {calls : List (Exchange (Call ε))} (h : ctx.Serves exchange calls ctx') :
    exchange.IsFaithful := by
  cases h with
  | found row => rfl
  | _ => trivial

end Context

/-! ## Transactions -/

namespace Transaction

/-- A discipline of writes follows from a discipline of staged changes: what is staged after some
rows were found stands for a write that those rows allow, and more rows allow no less. -/
structure Carries (R : List Job → Staged → Prop) (P : List Job → Write → Prop) : Prop where
  write : ∀ {ctx : Context} {seen : List Job} {change : Staged}, ctx.Notes seen → R seen change →
    P seen (ctx.writeOf change)
  mono : ∀ {known more : List Job} {w : Write}, known ⊆ more → P known w → P more w

theorem carries_anything : Carries (fun _ _ => True) (fun _ _ => True) :=
  ⟨fun _ _ => trivial, fun _ _ => trivial⟩

variable {R : List Job → Staged → Prop} {P : List Job → Write → Prop}

/-- The writes that were gathered stay allowed as the body goes on, the one that it now stages
included. -/
theorem Carries.writes_served (hcarries : Carries R P) {known seen : List Job} {ctx ctx' : Context}
    {q : Request ε β} {b : β} {calls : List (Exchange (Call ε))} (hseen : seen ⊆ known)
    (hnotes : ctx.Notes seen) (allowed : (Discipline.ofStaged R).allows seen q)
    (hwrites : ∀ w ∈ ctx.writes, P known w) (served : ctx.Serves ⟨q, b⟩ calls ctx') :
    ∀ w ∈ ctx'.writes, P (known ++ Exchange.finds ⟨q, b⟩) w := by
  rw [served.writes, List.forall_mem_append]
  constructor
  · exact fun w hw => hcarries.mono (List.subset_append_left _ _) (hwrites w hw)
  · intro w hw
    obtain ⟨change, hstaged, rfl⟩ := Option.map_eq_some_iff.1 (Option.mem_toList.1 hw)
    have hchange := hcarries.write hnotes (Discipline.allows_staged allowed hstaged)
    exact hcarries.mono (fun row hrow => List.mem_append_left _ (hseen hrow)) hchange

theorem obeys_commit {known : List Job} {ctx : Context} (h : ∀ w ∈ ctx.writes, P known w) (a : α) :
    (commit (ε := ε) ctx a).Obeys (.ofWrites P) known := by
  unfold commit
  split
  · exact (Routine.obeys_notifyAll _ _).bind fun _ _ => .done _
  · rw [Routine.callStore, Interaction.ask_bind]
    refine .ask h fun answer _ => ?_
    cases answer with
    | ok rows => exact (Routine.obeys_notifyAll _ _).bind fun _ _ => .done _
    | error failure =>
      cases failure with
      | refused e => exact .done _
      | crashed reason => exact .abort reason

theorem obeys_runFrom (hcarries : Carries R P) (limit : Duration) {known seen : List Job}
    {body : Interaction (Request ε) (Except TransactionError α)} {ctx : Context}
    (h : body.Obeys (.ofStaged R) seen) (hnotes : ctx.Notes seen)
    (hwrites : ∀ w ∈ ctx.writes, P (known ++ seen) w) :
    (runFrom limit body ctx).Obeys (.ofWrites P) (known ++ seen) := by
  induction h generalizing ctx with
  | done outcome =>
    cases outcome with
    | error e => exact .done _
    | ok a =>
      rw [runFrom]
      split
      · exact .done _
      · exact obeys_commit hwrites a
  | abort reason => exact .done _
  | @ask seen _ q next allowed rest ih =>
    -- Once the request is served, the body and what was gathered fit together as before.
    have hserved : ∀ {b calls ctx'}, ctx.Serves ⟨q, b⟩ calls ctx' →
        (runFrom limit (next b) ctx').Obeys (.ofWrites P)
          (known ++ seen ++ calls.flatMap Exchange.rows) := by
      intro b calls ctx' served
      rw [served.rows, List.append_assoc]
      refine ih b served.faithful (served.notes hnotes) ?_
      rw [← List.append_assoc]
      exact hcarries.writes_served (List.subset_append_right _ _) hnotes allowed hwrites served
    have htakes := takesUp limit q next ctx
    generalize runFrom limit (.ask q next) ctx = r at htakes ⊢
    cases htakes with
    | atOnce served =>
      have hnext := hserved served
      rw [List.flatMap_nil, List.append_nil] at hnext
      exact hnext
    | byCall quiet answers =>
      refine .ask (Discipline.allows_of_isQuiet quiet) fun answer hanswer => ?_
      rcases answers answer hanswer with ⟨b, ctx', served, hgoes⟩ | ⟨e, hfails⟩
      · have hnext := hserved served
        rw [List.flatMap_singleton] at hnext
        rw [hgoes]
        exact hnext
      · rw [hfails]
        exact .done _

/-- A transaction whose body obeys a discipline obeys the discipline that this one carries. -/
theorem obeys_run (hcarries : Carries R P) (limit : Duration) {command : Command ε α}
    (h : command.run.Obeys (.ofStaged R) []) (known : List Job) :
    (run limit command).Obeys (.ofWrites P) known := by
  refine .ask_of_rows_eq_nil trivial (fun _ => rfl) fun now _ => ?_
  have hnotes : Context.Notes { now := now } [] := fun _ => rfl
  have hwrites : ∀ w ∈ ({ now := now } : Context).writes, P (known ++ []) w := by
    intro w hw
    cases hw
  have hrun := obeys_runFrom hcarries limit h hnotes hwrites
  rw [List.append_nil] at hrun
  exact hrun

end Transaction

end DeferredWork
