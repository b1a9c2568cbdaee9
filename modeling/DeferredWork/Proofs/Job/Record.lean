import DeferredWork.Job.Record
import DeferredWork.Proofs.Identifier
import DeferredWork.Proofs.Json.Record

set_option autoImplicit false

/-!
# Jobs and incidents read back from JSON

A job and an incident survive being written as JSON and read again, field by field and character by
character (`records_survive_json`), as long as their numbers fit the words that a record reserves for
them and their instants lie outside the inserted seconds, which timestamps cannot always tell.
-/

namespace DeferredWork

open Json Text

/-! ## Scopes -/

theorem ScopeId.optional_toJson (scope : Option ScopeId) :
    optional text? (some (ofOption ScopeId.toJson scope)) = some (scope.map ScopeId.text) :=
  optional_ofOption nofun fun _ _ => rfl

theorem ScopeId.map_mk_text (scope : Option ScopeId) : (scope.map ScopeId.text).map .mk = scope := by
  cases scope <;> rfl

/-! ## Jobs -/

namespace Job

/-- The numbers of the job fit their fields, and its instants have timestamps of their own. -/
structure FitsRecord (job : Job) : Prop where
  retries : job.retries < 2 ^ 32
  retriesPerRun : job.retriesPerRun < 2 ^ 32
  failures : job.failures < 2 ^ 32
  priority_ge : -(2 ^ 63) ≤ job.priority
  priority_lt : job.priority < 2 ^ 63
  revision : job.revision < 2 ^ 64
  due : ∀ t ∈ job.due, t.isInserted = false
  lockedUntil : ∀ t ∈ job.lockedUntil, t.isInserted = false
  created : job.created.isInserted = false

theorem isPlain_toJson (job : Job) : job.toJson.IsPlain := by
  refine isPlain_zip ?_
  simp only [fieldValues, List.forall_mem_cons]
  have htext : ∀ o : Option String, IsPlain (ofOption .string o) := isPlain_ofOption .string
  have hinstant : ∀ o : Option Instant, IsPlain (ofOption Instant.toJson o) :=
    isPlain_ofOption Instant.isPlain_toJson
  exact ⟨.string _, .string _, htext _, isPlain_ofOption (fun _ => .string _) _, .bool _, hinstant _,
    isPlain_ofOption (fun _ => .string _) _, hinstant _, isPlain_ofInt _, isPlain_ofInt _,
    isPlain_ofInt _, isPlain_ofInt _, .bool _, isPlain_ofOption Duration.isPlain_toJson _, htext _,
    htext _, isPlain_ofInt _, Instant.isPlain_toJson _, fun _ h => absurd h List.not_mem_nil⟩

theorem ofJson?_toJson {job : Job} (h : job.FitsRecord) : ofJson? job.toJson = some job := by
  have hfields : job.toJson.fields? shape = some (job.fieldValues.map some) :=
    fields?_zip (by decide) rfl
  have howner : optional text? (some (ofOption Owner.toJson job.owner)) =
      some (job.owner.map Owner.text) := optional_ofOption nofun fun _ _ => rfl
  have hpriority : required (intOfBits? 64) (some (ofInt job.priority)) = some job.priority :=
    intOfBits?_ofInt h.priority_ge h.priority_lt
  have howners : (job.owner.map Owner.text).map .mk = job.owner := by cases job.owner <;> rfl
  rw [ofJson?, bind_part _ hfields]
  simp only [fieldValues, List.map_cons, List.map_nil]
  rw [JobId.toJson, bind_part _ (required_text _), bind_part _ (required_text _),
    bind_part _ (optional_text _), bind_part _ (ScopeId.optional_toJson _),
    bind_part _ (required_bool _),
    bind_part _ (optional_instant h.due), bind_part _ howner,
    bind_part _ (optional_instant h.lockedUntil), bind_part _ (required_nat h.retries),
    bind_part _ (required_nat h.retriesPerRun), bind_part _ (required_nat h.failures),
    bind_part _ hpriority, bind_part _ (required_bool _), bind_part _ (optional_duration _),
    bind_part _ (optional_text _), bind_part _ (optional_text _),
    bind_part _ (required_nat h.revision), bind_part _ (required_instant h.created),
    ScopeId.map_mk_text, howners]

theorem read_toJson {job : Job} (h : job.FitsRecord) :
    (Json.read job.toJson.text).bind ofJson? = some job := by
  rw [read_text job.isPlain_toJson, Option.bind_some, ofJson?_toJson h]

end Job

/-! ## Incidents -/

namespace Incident

/-- The count of the incident fits its field, and its instants have timestamps of their own. -/
structure FitsRecord (incident : Incident) : Prop where
  occurrences : incident.occurrences < 2 ^ 32
  created : incident.created.isInserted = false
  updated : incident.updated.isInserted = false
  resolved : ∀ t ∈ incident.resolved, t.isInserted = false

theorem isPlain_toJson (incident : Incident) : incident.toJson.IsPlain := by
  refine isPlain_zip ?_
  simp only [fieldValues, List.forall_mem_cons]
  exact ⟨.string _, .string _, .string _, isPlain_ofOption (fun _ => .string _) _, .string _,
    isPlain_ofOption .string _, Instant.isPlain_toJson _, Instant.isPlain_toJson _, isPlain_ofInt _,
    isPlain_ofOption Instant.isPlain_toJson _, fun _ h => absurd h List.not_mem_nil⟩

theorem uuid?_text (u : Uuid) : uuid? (.string u.text) = some u := by
  simp [uuid?, text?, Uuid.text, Uuid.read?_write]

theorem ofJson?_toJson {incident : Incident} (h : incident.FitsRecord) :
    ofJson? incident.toJson = some incident := by
  have hfields : incident.toJson.fields? shape = some (incident.fieldValues.map some) :=
    fields?_zip (by decide) rfl
  have hid : required uuid? (some (.string incident.id.text)) = some incident.id := uuid?_text _
  rw [ofJson?, bind_part _ hfields]
  simp only [fieldValues, List.map_cons, List.map_nil]
  rw [JobId.toJson, bind_part _ hid, bind_part _ (required_text _), bind_part _ (required_text _),
    bind_part _ (ScopeId.optional_toJson _), bind_part _ (required_text _),
    bind_part _ (optional_text _), bind_part _ (required_instant h.created),
    bind_part _ (required_instant h.updated), bind_part _ (required_nat h.occurrences),
    bind_part _ (optional_instant h.resolved), ScopeId.map_mk_text]

theorem read_toJson {incident : Incident} (h : incident.FitsRecord) :
    (Json.read incident.toJson.text).bind ofJson? = some incident := by
  rw [read_text incident.isPlain_toJson, Option.bind_some, ofJson?_toJson h]

end Incident

/-! ## Records -/

/-- **A job or an incident that is written as JSON is read back as it was.** -/
theorem records_survive_json :
    (∀ job : Job, job.FitsRecord → (Json.read job.toJson.text).bind Job.ofJson? = some job) ∧
    (∀ incident : Incident, incident.FitsRecord →
      (Json.read incident.toJson.text).bind Incident.ofJson? = some incident) :=
  ⟨fun _ => Job.read_toJson, fun _ => Incident.read_toJson⟩

/-- A job whose texts hold what JSON escapes and more, due in the first second of the calendar and
made after the year 9999, with the greatest numbers that its fields can hold. -/
def Job.atItsLimits : Job :=
  { Job.new ⟨"\"\\\x01\u00e9\u2028"⟩ "" ((Instant.of? 253402300800 123000000).getD .epoch) with
    scope := some ⟨"\n/\t"⟩
    due := Instant.of? Instant.firstSecond 0
    owner := some ⟨"null"⟩
    lockedUntil := some Instant.last
    retries := 4294967295
    failures := Job.maxFailures
    priority := -9223372036854775808
    interval := some (Duration.ofNanos Duration.maxNanos)
    failureMessage := some ""
    revision := 18446744073709551615 }

/-- An incident of that job, drawn in the first era and resolved in the last second of the
calendar. -/
def Incident.atItsLimits : Incident :=
  { Incident.forJob (.drawn 0 1) Job.atItsLimits "\x7f" none Instant.epoch with
    occurrences := 4294967295
    resolved := some Instant.last }

theorem Job.atItsLimits_fitsRecord : Job.atItsLimits.FitsRecord where
  retries := by decide
  retriesPerRun := by decide
  failures := by decide
  priority_ge := by decide
  priority_lt := by decide
  revision := by decide
  due := by decide
  lockedUntil := by decide
  created := by decide

theorem Incident.atItsLimits_fitsRecord : Incident.atItsLimits.FitsRecord where
  occurrences := by decide
  created := by decide
  updated := by decide
  resolved := by decide

theorem limits_survive_json :
    (Job.atItsLimits.FitsRecord ∧
      (Json.read Job.atItsLimits.toJson.text).bind Job.ofJson? = some Job.atItsLimits) ∧
    Incident.atItsLimits.FitsRecord ∧
      (Json.read Incident.atItsLimits.toJson.text).bind Incident.ofJson? =
        some Incident.atItsLimits :=
  ⟨⟨Job.atItsLimits_fitsRecord, records_survive_json.1 _ Job.atItsLimits_fitsRecord⟩,
    Incident.atItsLimits_fitsRecord, records_survive_json.2 _ Incident.atItsLimits_fitsRecord⟩

end DeferredWork
