import DeferredWork.Proofs.Routine.Runs

set_option autoImplicit false

/-!
# Routines that are alone with the store

While nobody else commits anything, a routine is determined by what the store holds, by the outages
that it meets and by what clocks and handlers say.  `Routine.Ensures` says what it then brings
about, whatever it is told; it is computed along the routine, call by call, and every undisturbed
run obeys it (`Routine.Runs.ensured`).  Every routine has such a run to its end
(`Routine.exists_runs`).
-/

namespace DeferredWork

variable {ε : Type → Type} {α β : Type}

/-! ## What a store holds -/

/-- The jobs and incidents of a store, whether or not it is in reach. -/
structure Contents where
  jobs : JobTable
  incidents : List Incident
  deriving DecidableEq

/-- What a store holds. -/
def Store.contents (s : Store) : Contents := ⟨s.jobs, s.incidents⟩

theorem Store.available_of_apply {s s' : Store} {batch : List Write} {rows : List Job}
    (h : s.apply batch = .ok (rows, s')) : s'.available = s.available := by
  cases batch with
  | nil =>
    cases h
    rfl
  | cons w ws =>
    cases havailable : s.available with
    | false =>
      rw [apply, applyIn_of_not_available havailable] at h
      cases h
    | true =>
      rw [apply, applyIn_of_available havailable] at h
      split at h
      · cases h
      · cases h
        exact havailable

namespace Contents

variable {c c₁ c' : Contents}

/-- A store that holds this and is in reach or not. -/
def inStore (c : Contents) (available : Bool) : Store := ⟨c.jobs, c.incidents, available⟩

/-- A store in reach accepts a batch, and holds this afterwards. -/
def Takes (c : Contents) (batch : List Write) (c' : Contents) : Prop :=
  ∃ rows, (c.inStore true).apply batch = .ok (rows, c'.inStore true)

/-- A store in reach refuses a batch. -/
def Refuses (c : Contents) (batch : List Write) (e : StoreError) : Prop :=
  (c.inStore true).apply batch = .error e

/-- The contents after a write that does this to the rows. -/
def after (c : Contents) (change : Change) (w : Write) : Contents :=
  ⟨c.jobs.change change, Incident.writeAmong c.incidents w⟩

theorem takes_iff {batch : List Write} :
    c.Takes batch c' ↔
      (∃ rows, c.jobs.writeAll batch = .ok (c'.jobs, rows)) ∧
        c'.incidents = batch.foldl Incident.writeAmong c.incidents := by
  rw [Takes, Store.apply, Store.applyIn_of_available rfl]
  simp only [inStore]
  cases c.jobs.writeAll batch with
  | error e => simp
  | ok result =>
    obtain ⟨jobs, rows⟩ := result
    simp [eq_comm]

theorem takes_of_apply {batch : List Write} {rows : List Job} {s : Store}
    (h : (c.inStore true).apply batch = .ok (rows, s)) : c.Takes batch s.contents := by
  have havailable : s.available = true := Store.available_of_apply h
  refine ⟨rows, h.trans ?_⟩
  rw [← havailable]
  rfl

theorem takes_nil : c.Takes [] c' ↔ c' = c := by
  rw [takes_iff]
  obtain ⟨jobs, incidents⟩ := c
  obtain ⟨jobs', incidents'⟩ := c'
  simp [JobTable.writeAll, eq_comm]

/-- A batch is taken if its first write is let through and then the others are taken. -/
theorem takes_cons {w : Write} {ws : List Write} :
    c.Takes (w :: ws) c' ↔
      ∃ change, c.jobs.view.Allows w change ∧ (c.after change w).Takes ws c' := by
  simp only [takes_iff, JobTable.writeAll_cons_eq_ok_iff, JobTable.write_eq_ok_iff, after,
    List.foldl_cons]
  constructor
  · rintro ⟨⟨_, t₁, _, rest, ⟨change, hallows, rfl, rfl⟩, hws, rfl⟩, hincidents⟩
    exact ⟨change, hallows, ⟨rest, hws⟩, hincidents⟩
  · rintro ⟨change, hallows, ⟨rest, hws⟩, hincidents⟩
    exact ⟨⟨_, _, _, rest, ⟨change, hallows, rfl, rfl⟩, hws, rfl⟩, hincidents⟩

theorem takes_singleton {w : Write} :
    c.Takes [w] c' ↔ ∃ change, c.jobs.view.Allows w change ∧ c' = c.after change w := by
  simp only [takes_cons, takes_nil]

theorem takes_append {ws₁ ws₂ : List Write} :
    c.Takes (ws₁ ++ ws₂) c' ↔ ∃ c₁, c.Takes ws₁ c₁ ∧ c₁.Takes ws₂ c' := by
  induction ws₁ generalizing c with
  | nil => simp [takes_nil]
  | cons w ws ih =>
    simp only [List.cons_append, takes_cons, ih]
    constructor
    · rintro ⟨change, hallows, c₁, h₁, h₂⟩
      exact ⟨c₁, ⟨change, hallows, h₁⟩, h₂⟩
    · rintro ⟨c₁, ⟨change, hallows, h₁⟩, h₂⟩
      exact ⟨change, hallows, c₁, h₁, h₂⟩

theorem Takes.unique {batch : List Write} (h₁ : c.Takes batch c₁) (h₂ : c.Takes batch c') :
    c₁ = c' := by
  obtain ⟨rows₁, h₁⟩ := h₁
  obtain ⟨rows₂, h₂⟩ := h₂
  rw [h₁] at h₂
  exact congrArg Store.contents (Prod.mk.inj (Except.ok.inj h₂)).2

theorem Takes.not_refuses {batch : List Write} {e : StoreError} (h : c.Takes batch c') :
    ¬ c.Refuses batch e := by
  obtain ⟨rows, h⟩ := h
  intro hrefuses
  rw [Refuses, h] at hrefuses
  cases hrefuses

/-- The contents after a row was stored as it is. -/
def put (c : Contents) (row : Job) : Contents := { c with jobs := c.jobs.put row }

/-- The contents after a row was updated. -/
def update (c : Contents) (row : Job) : Contents := c.put { row with revision := row.revision + 1 }

/-- The contents after a row was deleted. -/
def erase (c : Contents) (id : JobId) : Contents := { c with jobs := c.jobs.erase id }

/-- The contents after an incident was raised. -/
def raise (c : Contents) (incident : Incident) : Contents :=
  { c with incidents := incident.raiseAmong c.incidents }

/-- The contents after the open incidents of a job were resolved. -/
def resolve (c : Contents) (id : JobId) (now : Instant) : Contents :=
  { c with incidents := Incident.resolveAmong id now c.incidents }

theorem find?_put_self (c : Contents) (row : Job) : (c.put row).jobs.find? row.id = some row := by
  rw [put, JobTable.find?_put, if_pos rfl]

theorem find?_put_of_ne {row : Job} {id : JobId} (h : row.id ≠ id) :
    (c.put row).jobs.find? id = c.jobs.find? id := by
  rw [put, JobTable.find?_put, if_neg h]

/-- Of two rows of one name the later one stays. -/
theorem put_put {row before : Job} (h : before.id = row.id) : (c.put before).put row = c.put row := by
  have hjobs : (c.jobs.put before).put row = c.jobs.put row := by
    refine JobTable.ext_of_find? fun id => ?_
    simp only [JobTable.find?_put, h]
    split <;> rfl
  rw [put, put, put, hjobs]

theorem find?_put_cases {row found : Job} {id : JobId}
    (h : (c.put row).jobs.find? id = some found) :
    row.id = id ∧ found = row ∨ row.id ≠ id ∧ c.jobs.find? id = some found := by
  by_cases hname : row.id = id
  · subst hname
    rw [find?_put_self] at h
    exact .inl ⟨rfl, (Option.some.inj h).symm⟩
  · rw [find?_put_of_ne hname] at h
    exact .inr ⟨hname, h⟩

theorem find?_update (c : Contents) (row : Job) :
    (c.update row).jobs.find? row.id = some { row with revision := row.revision + 1 } :=
  c.find?_put_self { row with revision := row.revision + 1 }

theorem find?_erase_self (c : Contents) (id : JobId) : (c.erase id).jobs.find? id = none := by
  rw [erase, JobTable.find?_erase, if_pos rfl]

theorem find?_erase_of_ne {k id : JobId} (h : k ≠ id) :
    (c.erase k).jobs.find? id = c.jobs.find? id := by
  rw [erase, JobTable.find?_erase, if_neg h]

/-- What is stored after a deletion was stored before. -/
theorem find?_of_find?_erase {k id : JobId} {found : Job}
    (h : (c.erase k).jobs.find? id = some found) : c.jobs.find? id = some found := by
  by_cases hname : k = id
  · rw [hname, find?_erase_self] at h
    cases h
  · rwa [find?_erase_of_ne hname] at h

/-- A store takes an insertion if the name is free. -/
theorem after_insert {job : Job} {change : Change} (h : c.jobs.view.Allows (.insert job) change) :
    c.jobs.find? job.id = none ∧
      c.after change (.insert job) = c.put { job with revision := 1 } := by
  cases h with
  | insert free => exact ⟨free, rfl⟩

theorem after_delete {id : JobId} {expected : Expected} {change : Change}
    (h : c.jobs.view.Allows (.delete id expected) change) :
    c.after change (.delete id expected) = c.erase id := by
  cases h with
  | delete found met => rfl

/-- A store takes a lock on the row at its revision. -/
theorem after_lock {id : JobId} {revision : Nat} {owner : Owner} {expiry now : Instant}
    {change : Change} (h : c.jobs.view.Allows (.lock id revision owner expiry now) change) :
    ∃ before, c.jobs.find? id = some before ∧
      c.after change (.lock id revision owner expiry now) =
        c.put { before.lockedBy owner expiry with revision := before.revision + 1 } := by
  cases h with
  | lock found unlocked alone => exact ⟨_, found, rfl⟩

theorem allows_update {row before : Job} (stored : c.jobs.find? row.id = some before)
    (hrev : row.revision = before.revision) :
    c.jobs.view.Allows (.update row (.exactly before.revision))
      (.put { row with revision := row.revision + 1 }) := by
  rw [hrev]
  exact .update stored ((Expected.matches_exactly _ _).2 rfl)

end Contents

namespace Call

/-- No call moves the store in or out of reach. -/
theorem Answered.available {s s' : Store} {call : Call ε β} {answer : β}
    (h : call.Answered s answer s') : s'.available = s.available := by
  cases call with
  | store call =>
    cases call with
    | get id =>
      rw [Answered, Store.respond_get] at h
      cases h
      rfl
    | findDue now limit =>
      rw [Answered, Store.respond_findDue] at h
      cases h
      rfl
    | apply batch =>
      rw [Answered, Store.respond_apply] at h
      cases happly : s.apply batch with
      | error e =>
        rw [happly] at h
        cases h
        rfl
      | ok result =>
        rw [happly] at h
        cases h
        exact Store.available_of_apply happly
  | _ =>
    cases h
    rfl

/-- Every call can be answered. -/
theorem exists_answered (call : Call ε β) (s : Store) : ∃ answer s', call.Answered s answer s' := by
  cases call with
  | store call => exact ⟨_, _, rfl⟩
  | clock => exact ⟨.epoch, s, rfl⟩
  | draw => exact ⟨.nil, s, rfl⟩
  | wallClock => exact ⟨.epoch, s, rfl⟩
  | takeToken scope => exact ⟨true, s, rfl⟩
  | dispatch d => exact ⟨true, s, rfl⟩
  | foreign q => exact ⟨.error "", s, rfl⟩
  | _ => exact ⟨(), s, rfl⟩

end Call

/-! ## Settings -/

/-- What a routine meets that is alone with the store. -/
structure Setting where
  /-- The store may be out of reach. -/
  outages : Prop
  /-- The jobs that the routine may dispatch while the store holds this. -/
  dispatch : Contents → Dispatched → Prop := fun _ _ => True

namespace Setting

/-- The store is in reach throughout. -/
def reliable : Setting := { outages := False }

/-- The store may go out of reach and come back at any time. -/
def unreliable : Setting := { outages := True }

/-- The routine may make the call while the store holds this. -/
def Permits (setting : Setting) (c : Contents) : Call ε β → Prop
  | .dispatch d => setting.dispatch c d
  | _ => True

/-- The event belongs to the setting: nobody else commits anything, and the store goes out of reach
only if it may. -/
def Includes (setting : Setting) : Event ε → Prop
  | .own _ => True
  | .other _ => False
  | .reach value => value = false → setting.outages

theorem reliable_includes_own (talk : List (Exchange (Call ε))) :
    ∀ event ∈ talk.map Event.own, reliable.Includes event := by
  simp [Includes]

/-- Where the store may go out of reach, everything belongs but the batches of others. -/
theorem includes_of_alone {setting : Setting} (hout : setting.outages) {trace : List (Event ε)}
    (h : trace.filterMap Event.others? = []) : ∀ event ∈ trace, setting.Includes event := by
  intro event hmem
  cases event with
  | own exchange => trivial
  | other batch => cases List.filterMap_eq_nil_iff.1 h _ hmem
  | reach value => exact fun _ => hout

end Setting

namespace Routine

variable {setting : Setting} {post : α → Contents → Prop} {c : Contents}

/-- Alone with a store that holds this, and whatever it is told, a routine dispatches only what it
may, does not break off, and ends with a value and contents as promised. -/
def Ensures (setting : Setting) (post : α → Contents → Prop) : Routine ε α → Contents → Prop
  | .done a, c => post a c
  | .abort _, _ => False
  | .ask call next, c =>
    setting.Permits c call ∧
      ∀ available, (available = false → setting.outages) → ∀ answer s',
        call.Answered (c.inStore available) answer s' →
          Ensures setting post (next answer) s'.contents

/-! ## Rules -/

theorem Ensures.mono {post' : α → Contents → Prop} {r : Routine ε α}
    (h : r.Ensures setting post c) (hpost : ∀ a c, post a c → post' a c) :
    r.Ensures setting post' c := by
  induction r generalizing c with
  | done a => exact hpost a c h
  | abort reason => exact h
  | ask call next ih =>
    obtain ⟨hpermits, hnext⟩ := h
    exact ⟨hpermits, fun available hreach answer s' hanswered =>
      ih answer (hnext available hreach answer s' hanswered)⟩

theorem ensures_bind {post : β → Contents → Prop} {x : Routine ε α} {f : α → Routine ε β} :
    Ensures setting post (x.bind f) c ↔
      x.Ensures setting (fun a c => (f a).Ensures setting post c) c := by
  induction x generalizing c with
  | done a => exact Iff.rfl
  | abort reason => exact Iff.rfl
  | ask call next ih =>
    rw [Interaction.ask_bind, Ensures, Ensures]
    constructor
    · rintro ⟨hpermits, hnext⟩
      exact ⟨hpermits, fun available hreach answer s' hanswered =>
        (ih answer).1 (hnext available hreach answer s' hanswered)⟩
    · rintro ⟨hpermits, hnext⟩
      exact ⟨hpermits, fun available hreach answer s' hanswered =>
        (ih answer).2 (hnext available hreach answer s' hanswered)⟩

/-- What is to be done in case of a break does not matter to a routine that does not break off. -/
theorem Ensures.onAbort {r : Routine ε α} (h : r.Ensures setting post c)
    (cleanup : Routine ε Unit) : Ensures setting post (Interaction.onAbort cleanup r) c := by
  induction r generalizing c with
  | done a => exact h
  | abort reason => exact h.elim
  | ask call next ih =>
    obtain ⟨hpermits, hnext⟩ := h
    exact ⟨hpermits, fun available hreach answer s' hanswered =>
      ih answer (hnext available hreach answer s' hanswered)⟩

end Routine

/-- The event is a call of the store by the routine itself. -/
def Event.callsStore : Event ε → Bool
  | .own ⟨.store _, _⟩ => true
  | _ => false

/-- The call is neither one of the store nor one of the pool. -/
def Call.isAside : Call ε β → Bool
  | .store _ => false
  | .dispatch _ => false
  | _ => true

namespace Routine

variable {setting : Setting} {post : α → Contents → Prop} {c : Contents}

/-- A call that is not one of the store leaves what the store holds as it is. -/
theorem ensures_ask {call : Call ε β} {next : β → Routine ε α} (h : call.isAside = true)
    (hnext : ∀ b, (next b).Ensures setting post c) :
    Ensures setting post (.ask call next) c := by
  cases call with
  | store call => cases h
  | dispatch d => cases h
  | _ =>
    refine ⟨trivial, fun available _ answer s' hanswered => ?_⟩
    obtain rfl : s' = c.inStore available := hanswered
    exact hnext answer

theorem ensures_query_bind {call : Call ε β} {f : β → Routine ε α} (h : call.isAside = true)
    (hnext : ∀ b, (f b).Ensures setting post c) :
    Ensures setting post ((Interaction.query call).bind f) c :=
  ensures_ask h hnext

theorem ensures_dispatch {d : Dispatched} {next : Bool → Routine ε α} (h : setting.dispatch c d)
    (hnext : ∀ accepted, (next accepted).Ensures setting post c) :
    Ensures setting post (.ask (.dispatch d) next) c := by
  refine ⟨h, fun available _ answer s' hanswered => ?_⟩
  obtain rfl : s' = c.inStore available := hanswered
  exact hnext answer

theorem ensures_notifyAll {f : Unit → Routine ε α} (incidents : List Incident)
    (h : (f ()).Ensures setting post c) :
    Ensures setting post ((notifyAll incidents).bind f) c := by
  induction incidents with
  | nil => exact h
  | cons incident incidents ih => exact ensures_ask rfl fun _ => ih

theorem ensures_giveBack {f : Unit → Routine ε α} (token : Option ScopeId)
    (h : (f ()).Ensures setting post c) :
    Ensures setting post ((giveBack token).bind f) c := by
  cases token with
  | none => exact h
  | some scope => exact ensures_ask rfl fun _ => h

/-- A reading tells what the store holds, unless it is out of reach. -/
theorem ensures_get {id : JobId} {next : Except Fault (Option Job) → Routine ε α}
    (hfound : (next (.ok (c.jobs.find? id))).Ensures setting post c)
    (hout : setting.outages → (next (.error (.refused Store.outOfReach))).Ensures setting post c) :
    Ensures setting post (.ask (.store (.get id)) next) c := by
  refine ⟨trivial, fun available hreach answer s' hanswered => ?_⟩
  rw [Call.Answered, Store.respond_get] at hanswered
  cases available with
  | true =>
    cases hanswered
    exact hfound
  | false =>
    cases hanswered
    exact hout (hreach rfl)

theorem ensures_get_bind {id : JobId} {f : Except StoreError (Option Job) → Routine ε α}
    (hfound : (f (.ok (c.jobs.find? id))).Ensures setting post c)
    (hout : setting.outages → (f (.error Store.outOfReach)).Ensures setting post c) :
    Ensures setting post ((callStore (.get id)).bind f) c :=
  ensures_get hfound hout

/-- A poll tells which jobs are due, unless the store is out of reach. -/
theorem ensures_findDue_bind {now : Instant} {limit : Nat}
    {f : Except StoreError (List Job) → Routine ε α}
    (hfound : (f (.ok (c.jobs.poll now limit))).Ensures setting post c)
    (hout : setting.outages → (f (.error Store.outOfReach)).Ensures setting post c) :
    Ensures setting post ((callStore (.findDue now limit)).bind f) c := by
  refine ⟨trivial, fun available hreach answer s' hanswered => ?_⟩
  rw [Call.Answered, Store.respond_findDue] at hanswered
  cases available with
  | true =>
    cases hanswered
    exact hfound
  | false =>
    cases hanswered
    exact hout (hreach rfl)

/-- A batch is taken or refused by what the store holds, unless the store is out of reach. -/
theorem ensures_apply_bind {batch : List Write} {f : Except StoreError (List Job) → Routine ε α}
    (htaken : ∀ rows c', c.Takes batch c' → (f (.ok rows)).Ensures setting post c')
    (hrefused : ∀ e, c.Refuses batch e → (f (.error e)).Ensures setting post c)
    (hout : setting.outages → (f (.error Store.outOfReach)).Ensures setting post c) :
    Ensures setting post ((callStore (.apply batch)).bind f) c := by
  refine ⟨trivial, fun available hreach answer s' hanswered => ?_⟩
  have hresponse : (c.inStore available).respond (.apply batch) = (answer, s') := hanswered
  rw [Store.respond_apply] at hresponse
  cases available with
  | true =>
    cases happly : (c.inStore true).apply batch with
    | error e =>
      rw [happly] at hresponse
      cases hresponse
      exact hrefused e happly
    | ok result =>
      obtain ⟨rows, s₁⟩ := result
      rw [happly] at hresponse
      cases hresponse
      exact htaken rows s'.contents (Contents.takes_of_apply happly)
  | false =>
    cases batch with
    | nil =>
      cases hresponse
      exact htaken [] c (Contents.takes_nil.2 rfl)
    | cons w ws =>
      rw [Store.apply, Store.applyIn_of_not_available rfl] at hresponse
      cases hresponse
      exact hout (hreach rfl)

/-! ## Undisturbed runs -/

/-- In a run in which nobody else commits anything, a routine keeps its promise. -/
theorem Runs.ensured {s s' : Store} {r r' : Routine ε α} {trace : List (Event ε)}
    (h : Runs s r trace s' r') (hens : r.Ensures setting post s.contents)
    (hreach : s.available = false → setting.outages)
    (htrace : ∀ event ∈ trace, setting.Includes event) : r'.Ensures setting post s'.contents := by
  induction h with
  | stop s r => exact hens
  | @own _ call answer next s s₁ s' trace r' answered rest ih =>
    obtain ⟨-, hnext⟩ := hens
    obtain ⟨-, htrace⟩ := List.forall_mem_cons.1 htrace
    refine ih (hnext s.available hreach answer s₁ answered) (fun hout => hreach ?_) htrace
    rw [← hout]
    exact answered.available.symm
  | other accepted rest ih => exact (List.forall_mem_cons.1 htrace).1.elim
  | reach rest ih =>
    obtain ⟨hvalue, htrace⟩ := List.forall_mem_cons.1 htrace
    exact ih hens hvalue htrace

/-- A routine that keeps its promise and makes no more calls is done as promised. -/
theorem Ensures.done_of_isOver {r : Routine ε α} (h : r.Ensures setting post c)
    (hover : r.isOver = true) : ∃ a, r = .done a ∧ post a c := by
  cases r with
  | done a => exact ⟨a, rfl, h⟩
  | abort reason => exact h.elim
  | ask call next => cases hover

/-- What a routine dispatches in an undisturbed run, it may dispatch at that point. -/
theorem Runs.dispatched {s s' : Store} {r r' : Routine ε α} {before after : List (Event ε)}
    {d : Dispatched} {accepted : Bool}
    (h : Runs s r (before ++ .own ⟨.dispatch d, accepted⟩ :: after) s' r')
    (hens : r.Ensures setting post s.contents) (hreach : s.available = false → setting.outages)
    (htrace : ∀ event ∈ before, setting.Includes event) :
    ∃ s₁ r₁, Runs s r before s₁ r₁ ∧ setting.dispatch s₁.contents d ∧
      Runs s₁ r₁ (.own ⟨.dispatch d, accepted⟩ :: after) s' r' := by
  obtain ⟨s₁, r₁, hbefore, hrest⟩ := h.split
  refine ⟨s₁, r₁, hbefore, ?_, hrest⟩
  have hthere := hbefore.ensured hens hreach htrace
  cases hrest with
  | own answered rest => exact hthere.1

/-- Every routine can be run to its end without any disturbance. -/
theorem exists_runs (r : Routine ε α) (s : Store) :
    ∃ (talk : List (Exchange (Call ε))) (s' : Store) (r' : Routine ε α),
      Runs s r (talk.map Event.own) s' r' ∧ r'.isOver = true := by
  induction r generalizing s with
  | done a => exact ⟨[], s, .done a, .stop _ _, rfl⟩
  | abort reason => exact ⟨[], s, .abort reason, .stop _ _, rfl⟩
  | ask call next ih =>
    obtain ⟨answer, s₁, answered⟩ := call.exists_answered s
    obtain ⟨talk, s', r', hruns, hover⟩ := ih answer s₁
    exact ⟨⟨call, answer⟩ :: talk, s', r', .own answered hruns, hover⟩

/-- With nobody else around and the store in reach throughout, a routine comes to an end, and
whenever it does it is done and has brought this about. -/
def Achieves (r : Routine ε α) (s : Store) (post : α → Store → Prop) : Prop :=
  (∃ (talk : List (Exchange (Call ε))) (s' : Store) (a : α),
    Runs s r (talk.map Event.own) s' (.done a)) ∧
  ∀ (talk : List (Exchange (Call ε))) (s' : Store) (r' : Routine ε α),
    Runs s r (talk.map Event.own) s' r' → r'.isOver = true → ∃ a, r' = .done a ∧ post a s'

theorem Ensures.achieves {r : Routine ε α} {s : Store}
    (h : r.Ensures .reliable post s.contents) (havailable : s.available = true) :
    r.Achieves s fun a s' => post a s'.contents := by
  have hall : ∀ (talk : List (Exchange (Call ε))) (s' : Store) (r' : Routine ε α),
      Runs s r (talk.map Event.own) s' r' → r'.isOver = true →
        ∃ a, r' = .done a ∧ post a s'.contents := by
    intro talk s' r' hruns hover
    have hreach : s.available = false → Setting.reliable.outages := by
      rw [havailable]
      exact fun h => nomatch h
    exact (hruns.ensured h hreach (Setting.reliable_includes_own talk)).done_of_isOver hover
  obtain ⟨talk, s', r', hruns, hover⟩ := exists_runs r s
  obtain ⟨a, rfl, -⟩ := hall talk s' r' hruns hover
  exact ⟨⟨talk, s', a, hruns⟩, hall⟩

theorem Achieves.mono {r : Routine ε α} {s : Store} {post post' : α → Store → Prop}
    (h : r.Achieves s post) (hpost : ∀ a s', post a s' → post' a s') : r.Achieves s post' := by
  refine ⟨h.1, fun talk s' r' hruns hover => ?_⟩
  obtain ⟨a, hdone, ha⟩ := h.2 talk s' r' hruns hover
  exact ⟨a, hdone, hpost a s' ha⟩

/-! ## Runs that are alone while they call the store -/

/-- In an undisturbed run to its end, a routine that asks something is answered and goes on. -/
theorem runs_ask {call : Call ε β} {next : β → Routine ε α} {s s' : Store}
    {talk : List (Exchange (Call ε))} {r' : Routine ε α}
    (h : Runs s (.ask call next) (talk.map Event.own) s' r') (hover : r'.isOver = true) :
    ∃ answer s₁ rest, talk = ⟨call, answer⟩ :: rest ∧ call.Answered s answer s₁ ∧
      Runs s₁ (next answer) (rest.map Event.own) s' r' := by
  cases talk with
  | nil =>
    cases h
    cases hover
  | cons exchange rest =>
    rw [List.map_cons] at h
    cases h with
    | own answered hrest => exact ⟨_, _, rest, rfl, answered, hrest⟩

theorem Runs.append {s s₁ s' : Store} {r r₁ r' : Routine ε α} {trace more : List (Event ε)}
    (h : Runs s r trace s₁ r₁) (hmore : Runs s₁ r₁ more s' r') :
    Runs s r (trace ++ more) s' r' := by
  induction h with
  | stop s r => exact hmore
  | own answered rest ih => exact .own answered (ih hmore)
  | other accepted rest ih => exact .other accepted (ih hmore)
  | reach rest ih => exact .reach (ih hmore)

/-- What a routine asks and is told without calling the store, it can be told whatever the store
is. -/
theorem Runs.away {s s' : Store} {r r' : Routine ε α} {trace : List (Event ε)}
    (h : Runs s r trace s' r') (haway : ∀ event ∈ trace, event.callsStore = false) (t : Store) :
    Runs t r ((trace.filterMap Event.own?).map Event.own) t r' := by
  induction h with
  | stop s r => exact .stop t r
  | @own _ call answer _ _ _ _ _ _ answered rest ih =>
    obtain ⟨hcall, haway⟩ := List.forall_mem_cons.1 haway
    have hanswered : call.Answered t answer t := by
      cases call with
      | store call => cases hcall
      | _ => rfl
    exact .own hanswered (ih haway)
  | other accepted rest ih => exact ih (List.forall_mem_cons.1 haway).2
  | reach rest ih => exact ih (List.forall_mem_cons.1 haway).2

/-- A routine runs and makes calls, and is alone with the store from its first call of the store to
its last one.  Others act only before, when the store has become `t`, and after, from the store `t'`
on that the routine has left. -/
inductive RunsApart (s : Store) (r : Routine ε α) (t : Store) (calls : List (Exchange (Call ε)))
    (t' s' : Store) (r' : Routine ε α) : Prop
  | mk {before after : List (Event ε)} {talk : List (Exchange (Call ε))} {r₁ r₂ : Routine ε α}
      (arrives : Runs s r before t r₁) (before_away : ∀ event ∈ before, event.callsStore = false)
      (alone : Runs t r₁ (talk.map Event.own) t' r₂)
      (leaves : Runs t' r₂ after s' r') (after_away : ∀ event ∈ after, event.callsStore = false)
      (said : calls = before.filterMap Event.own? ++ talk ++ after.filterMap Event.own?)

/-- A routine that is alone while it calls the store goes on as if nobody had been there. -/
theorem RunsApart.undisturbed {s t t' s' : Store} {r r' : Routine ε α}
    {calls : List (Exchange (Call ε))} (h : RunsApart s r t calls t' s' r') :
    Runs t r (calls.map Event.own) t' r' := by
  obtain ⟨arrives, before_away, alone, leaves, after_away, rfl⟩ := h
  rw [List.map_append, List.map_append]
  exact ((arrives.away before_away t).append alone).append (leaves.away after_away t')

theorem runsApart_of_alone {s s' : Store} {r r' : Routine ε α} {calls : List (Exchange (Call ε))}
    (h : Runs s r (calls.map Event.own) s' r') : RunsApart s r s calls s' s' r' :=
  ⟨.stop s r, List.forall_mem_nil _, h, .stop s' r', List.forall_mem_nil _,
    (List.append_nil _).symm⟩

end Routine

end DeferredWork
