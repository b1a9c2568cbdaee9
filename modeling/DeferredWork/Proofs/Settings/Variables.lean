import DeferredWork.Proofs.Settings.Rules
import DeferredWork.Proofs.Text.Numeral

set_option autoImplicit false

/-!
# The grammar of the variables

What a set of variables configures is said without running the reader: the first variable, in the order
of reading, whose text has not the form of its field is refused with this text as it stands; if there is
none, each field has the value that its variable denotes, or its default, and the first rule that the
settings then break is refused (`Settings.Configures`).  Exactly this is what reading the variables gives
(`Settings.ofVariables_iff`).
-/

namespace DeferredWork

namespace Settings

open Text

/-! ## Forms of texts -/

/-- A text names a strategy, in whatever case and with blank characters around the name. -/
def NamesStrategy (raw : String) (strategy : Strategy) : Prop :=
  ∃ core, Trims raw core ∧ core.map Char.toLower = strategy.name.toList

/-- A text denotes a number of milliseconds. -/
def IsMillis (raw : String) (d : Duration) : Prop :=
  ∃ n, IsNumeral 64 raw n ∧ d.nanos = n * 1000000

/-- What the text of a variable has to be. -/
inductive Form where
  | anything
  | number (bits : Nat)
  | strategy
  deriving DecidableEq, Repr

/-- A text has the form. -/
def Form.Admits : Form → String → Prop
  | .anything, _ => True
  | .number bits, raw => ∃ n, IsNumeral bits raw n
  | .strategy, raw => ∃ strategy, NamesStrategy raw strategy

/-- The variables and the forms of their texts, in the order in which they are read. -/
def forms : List (String × Form) := [
  ("JOBFORGE_ENGINE_NAME", .anything),
  ("JOBFORGE_BATCH_SIZE", .number 64),
  ("JOBFORGE_LOCK_DURATION_MS", .number 64),
  ("JOBFORGE_MAX_POOL_SIZE", .number 64),
  ("JOBFORGE_QUEUE_CAPACITY", .number 64),
  ("JOBFORGE_DEFAULT_RETRIES", .number 32),
  ("JOBFORGE_BACKOFF", .strategy),
  ("JOBFORGE_RETRY_DELAY_MS", .number 64),
  ("JOBFORGE_MAX_RETRY_DELAY_MS", .number 64),
  ("JOBFORGE_TRANSACTION_TIMEOUT_MS", .number 64),
  ("JOBFORGE_POLL_INTERVAL_MS", .number 64),
  ("JOBFORGE_MAX_IDLE_WAIT_MS", .number 64)]

/-! ## What variables configure -/

variable {lookup : String → Option String}

/-- A variable is there, and its text has not the form of its field. -/
def IsMalformed (lookup : String → Option String) (v : String × Form) : Prop :=
  ∃ raw, lookup v.1 = some raw ∧ ¬ v.2.Admits raw

/-- A field has what the text of its variable means, or its default if there is no text. -/
def Gives {α : Type} (text : Option String) (Means : String → α → Prop) (unset value : α) : Prop :=
  match text with
  | none => value = unset
  | some raw => Means raw value

/-- The settings are the default ones, overlaid field by field. -/
structure IsOverlaid (lookup : String → Option String) (s : Settings) : Prop where
  name : Gives (lookup "JOBFORGE_ENGINE_NAME") (fun raw name => name = raw) default.name s.name
  batch : Gives (lookup "JOBFORGE_BATCH_SIZE") (IsNumeral 64) default.batch s.batch
  lockDuration :
    Gives (lookup "JOBFORGE_LOCK_DURATION_MS") IsMillis default.lockDuration s.lockDuration
  workers : Gives (lookup "JOBFORGE_MAX_POOL_SIZE") (IsNumeral 64) default.workers s.workers
  queue : Gives (lookup "JOBFORGE_QUEUE_CAPACITY") (IsNumeral 64) default.queue s.queue
  defaultRetries :
    Gives (lookup "JOBFORGE_DEFAULT_RETRIES") (IsNumeral 32) default.defaultRetries s.defaultRetries
  strategy :
    Gives (lookup "JOBFORGE_BACKOFF") NamesStrategy default.retryPolicy.strategy
      s.retryPolicy.strategy
  base :
    Gives (lookup "JOBFORGE_RETRY_DELAY_MS") IsMillis default.retryPolicy.base s.retryPolicy.base
  /-- A base that is above the default cap lifts it; a cap of its own replaces the lifted one. -/
  cap :
    Gives (lookup "JOBFORGE_MAX_RETRY_DELAY_MS") IsMillis
      (max default.retryPolicy.cap s.retryPolicy.base) s.retryPolicy.cap
  limit : Gives (lookup "JOBFORGE_TRANSACTION_TIMEOUT_MS") IsMillis default.limit s.limit
  pollInterval :
    Gives (lookup "JOBFORGE_POLL_INTERVAL_MS") IsMillis default.pollInterval s.pollInterval
  maxIdle : Gives (lookup "JOBFORGE_MAX_IDLE_WAIT_MS") IsMillis default.maxIdle s.maxIdle
  /-- No variable is there for the other fields. -/
  others : s.retryPolicy.jitter = default.retryPolicy.jitter ∧
    s.failureThreshold = default.failureThreshold ∧ s.backpressure = default.backpressure

/-- What a set of variables configures: settings, or a refusal. -/
inductive Configures (lookup : String → Option String) : Except SettingsError Settings → Prop where
  | malformed {key raw : String} {form : Form} :
      FirstIn (IsMalformed lookup) forms (key, form) → lookup key = some raw →
      Configures lookup (.error (.invalidValue key raw))
  | flawed {s : Settings} {flaw : SettingsFlaw} :
      IsOverlaid lookup s → FirstIn s.Breaks s.rules flaw →
      Configures lookup (.error (.invalid flaw))
  | accepted {s : Settings} :
      IsOverlaid lookup s → (∀ flaw ∈ s.rules, ¬ s.Breaks flaw) → Configures lookup (.ok s)

end Settings

/-! ## Reading one variable -/

namespace SettingsVariable

open Settings Text

variable {lookup : String → Option String} {s t : Settings}

/-- A variable sets its field to what its text means, and refuses a text that means nothing. -/
def Sets {α : Type} (v : SettingsVariable) (Means : String → α → Prop)
    (set : α → Settings → Settings) : Prop :=
  ∀ raw s t, v.overlay raw s = some t ↔ ∃ a, Means raw a ∧ set a s = t

theorem sets_natural (key : String) (bits : Nat) (set : Nat → Settings → Settings) :
    (natural key bits set).Sets (IsNumeral bits) set := by
  intro raw s t
  simp only [natural, Option.map_eq_some_iff, readNatural_eq_some_iff]

/-- No number of milliseconds of 64 bits is too long for a duration. -/
theorem isMillis_iff {raw : String} {d : Duration} :
    IsMillis raw d ↔ ∃ n, IsNumeral 64 raw n ∧ d = .ofMillis n := by
  refine exists_congr fun n => and_congr_right fun h => ?_
  obtain ⟨_, _, _, _, _, hfits⟩ := h
  rw [Duration.ext_iff, Duration.ofMillis, Duration.nanos_ofNanos, Duration.maxNanos]
  omega

theorem sets_millis (key : String) (set : Duration → Settings → Settings) :
    (millis key set).Sets IsMillis set := by
  intro raw s t
  rw [millis, sets_natural]
  simp only [isMillis_iff]
  constructor
  · rintro ⟨n, hn, rfl⟩
    exact ⟨_, ⟨n, hn, rfl⟩, rfl⟩
  · rintro ⟨_, ⟨n, hn, rfl⟩, rfl⟩
    exact ⟨n, hn, rfl⟩

theorem strategy?_eq_some_iff {raw : String} {strategy : Strategy} :
    strategy? raw = some strategy ↔ NamesStrategy raw strategy := by
  have hname : ∀ {name}, Strategy.ofName? name = some strategy ↔ name = strategy.name := by
    intro name
    constructor
    · intro h
      have hfound := List.find?_some h
      exact (beq_iff_eq.1 hfound).symm
    · rintro rfl
      exact Strategy.ofName?_name strategy
  rw [strategy?, hname, NamesStrategy, trim, String.toList_ofList]
  simp only [trims_iff, exists_eq_left', ← String.toList_inj, String.toList_ofList]

theorem overlayFrom_eq_ok_iff {v : SettingsVariable} : overlayFrom lookup s v = .ok t ↔
    lookup v.key = none ∧ s = t ∨ ∃ raw, lookup v.key = some raw ∧ v.overlay raw s = some t := by
  unfold overlayFrom
  cases lookup v.key with
  | none => simp
  | some raw => cases hraw : v.overlay raw s <;> simp [hraw]

theorem overlayFrom_eq_error_iff {v : SettingsVariable} {e : SettingsError} :
    overlayFrom lookup s v = .error e ↔
      ∃ raw, lookup v.key = some raw ∧ v.overlay raw s = none ∧ e = .invalidValue v.key raw := by
  unfold overlayFrom
  cases lookup v.key with
  | none => simp
  | some raw => cases hraw : v.overlay raw s <;> simp [hraw, eq_comm]

/-- The field of a variable that is read has what the text means, or what it had before. -/
theorem Sets.overlayFrom {α : Type} {v : SettingsVariable} {Means : String → α → Prop}
    {set : α → Settings → Settings} {unset : α} (hv : v.Sets Means set)
    (h : overlayFrom lookup s v = .ok t) (hunset : set unset s = s) :
    ∃ a, Gives (lookup v.key) Means unset a ∧ set a s = t := by
  rcases overlayFrom_eq_ok_iff.1 h with ⟨hnone, rfl⟩ | ⟨raw, hraw, hoverlay⟩
  · exact ⟨unset, by rw [hnone]; rfl, hunset⟩
  · rw [hraw]
    exact (hv raw s t).1 hoverlay

/-! ## Reading all variables -/

/-- A variable refuses exactly the texts that have not the form that is said of it. -/
structure Fits (v : SettingsVariable) (f : String × Form) : Prop where
  key : v.key = f.1
  admits : ∀ raw s, v.overlay raw s = none ↔ ¬ f.2.Admits raw

theorem Sets.overlay_eq_none_iff {α : Type} {v : SettingsVariable} {Means : String → α → Prop}
    {set : α → Settings → Settings} (hv : v.Sets Means set) (raw : String) (s : Settings) :
    v.overlay raw s = none ↔ ¬ ∃ a, Means raw a := by
  rw [Option.eq_none_iff_forall_ne_some, not_exists]
  constructor
  · intro h a ha
    exact h _ ((hv raw s _).2 ⟨a, ha, rfl⟩)
  · intro h t ht
    obtain ⟨a, ha, -⟩ := (hv raw s t).1 ht
    exact h a ha

theorem sets_name : Sets ⟨"JOBFORGE_ENGINE_NAME", fun raw s => some { s with name := raw }⟩
    (fun raw name => name = raw) (fun name s => { s with name := name }) := by
  intro raw s t
  simp

theorem sets_strategy {set : Strategy → Settings → Settings} :
    Sets ⟨"JOBFORGE_BACKOFF", fun raw s => (strategy? raw).map fun strategy => set strategy s⟩
      NamesStrategy set := by
  intro raw s t
  simp only [Option.map_eq_some_iff, strategy?_eq_some_iff]

theorem all_fit : List.Forall₂ Fits all forms := by
  have hnumber : ∀ key bits set, Fits (natural key bits set) (key, .number bits) :=
    fun key bits set => ⟨rfl, (sets_natural key bits set).overlay_eq_none_iff⟩
  exact
    .cons ⟨rfl, fun raw s => by simp [Form.Admits]⟩ <| .cons (hnumber _ _ _) <|
    .cons (hnumber _ _ _) <| .cons (hnumber _ _ _) <| .cons (hnumber _ _ _) <|
    .cons (hnumber _ _ _) <| .cons ⟨rfl, sets_strategy.overlay_eq_none_iff⟩ <|
    .cons (hnumber _ _ _) <| .cons (hnumber _ _ _) <| .cons (hnumber _ _ _) <|
    .cons (hnumber _ _ _) <| .cons (hnumber _ _ _) .nil

/-- A reading that fails reports the first malformed variable with its text. -/
theorem foldlM_overlayFrom_eq_error {vs : List SettingsVariable} {fs : List (String × Form)}
    (hfits : List.Forall₂ Fits vs fs) {e : SettingsError}
    (h : vs.foldlM (overlayFrom lookup) s = .error e) :
    ∃ key form raw, FirstIn (IsMalformed lookup) fs (key, form) ∧ lookup key = some raw ∧
      e = .invalidValue key raw := by
  induction hfits generalizing s with
  | nil => cases h
  | @cons v f vs fs hv _ ih =>
    rw [List.foldlM_cons] at h
    cases hfirst : overlayFrom lookup s v with
    | error e' =>
      rw [hfirst] at h
      cases h
      obtain ⟨raw, hraw, hrefused, rfl⟩ := overlayFrom_eq_error_iff.1 hfirst
      rw [hv.key] at hraw ⊢
      have hmalformed : IsMalformed lookup f := ⟨raw, hraw, (hv.admits raw s).1 hrefused⟩
      exact ⟨f.1, f.2, raw, firstIn_cons.2 (.inl ⟨hmalformed, rfl⟩), hraw, rfl⟩
    | ok t =>
      rw [hfirst] at h
      obtain ⟨key, form, raw, hlater, hraw, rfl⟩ := ih h
      have hwell : ¬ IsMalformed lookup f := by
        rintro ⟨raw, hraw, hform⟩
        rw [← hv.key] at hraw
        have hrefused : overlayFrom lookup s v = .error (.invalidValue v.key raw) :=
          overlayFrom_eq_error_iff.2 ⟨raw, hraw, (hv.admits raw s).2 hform, rfl⟩
        rw [hfirst] at hrefused
        cases hrefused
      exact ⟨key, form, raw, firstIn_cons.2 (.inr ⟨hwell, hlater⟩), hraw, rfl⟩

theorem bind_eq_ok {ε α β : Type} {x : Except ε α} {f : α → Except ε β} {b : β} :
    x >>= f = .ok b ↔ ∃ a, x = .ok a ∧ f a = .ok b := by
  cases x with
  | error e => exact ⟨nofun, nofun⟩
  | ok a => exact ⟨fun h => ⟨a, rfl, h⟩, fun ⟨_, ha, h⟩ => by cases ha; exact h⟩

/-- A reading that succeeds overlays the default settings field by field. -/
theorem isOverlaid_of_foldlM
    (h : all.foldlM (overlayFrom lookup) Settings.default = .ok t) : IsOverlaid lookup t := by
  simp only [all, List.foldlM_cons, List.foldlM_nil, bind_eq_ok] at h
  obtain ⟨s₁, h₁, s₂, h₂, s₃, h₃, s₄, h₄, s₅, h₅, s₆, h₆, s₇, h₇, s₈, h₈, s₉, h₉, s₁₀, h₁₀, s₁₁, h₁₁,
    s₁₂, h₁₂, ht⟩ := h
  obtain ⟨name, hname, rfl⟩ := sets_name.overlayFrom h₁ rfl
  obtain ⟨batch, hbatch, rfl⟩ := (sets_natural _ _ _).overlayFrom h₂ rfl
  obtain ⟨lockDuration, hlock, rfl⟩ := (sets_millis _ _).overlayFrom h₃ rfl
  obtain ⟨workers, hworkers, rfl⟩ := (sets_natural _ _ _).overlayFrom h₄ rfl
  obtain ⟨queue, hqueue, rfl⟩ := (sets_natural _ _ _).overlayFrom h₅ rfl
  obtain ⟨retries, hretries, rfl⟩ := (sets_natural _ _ _).overlayFrom h₆ rfl
  obtain ⟨strategy, hstrategy, rfl⟩ := sets_strategy.overlayFrom h₇ rfl
  obtain ⟨base, hbase, rfl⟩ := (sets_millis _ _).overlayFrom h₈ rfl
  obtain ⟨cap, hcap, rfl⟩ := (sets_millis _ _).overlayFrom h₉ rfl
  obtain ⟨limit, hlimit, rfl⟩ := (sets_millis _ _).overlayFrom h₁₀ rfl
  obtain ⟨interval, hinterval, rfl⟩ := (sets_millis _ _).overlayFrom h₁₁ rfl
  obtain ⟨idle, hidle, rfl⟩ := (sets_millis _ _).overlayFrom h₁₂ rfl
  cases ht
  exact ⟨hname, hbatch, hlock, hworkers, hqueue, hretries, hstrategy, hbase, hcap, hlimit, hinterval,
    hidle, rfl, rfl, rfl⟩

/-- Reading looks at no other variables. -/
theorem foldlM_overlayFrom_congr {lookup' : String → Option String} (vs : List SettingsVariable)
    (h : ∀ v ∈ vs, lookup' v.key = lookup v.key) (s : Settings) :
    vs.foldlM (overlayFrom lookup') s = vs.foldlM (overlayFrom lookup) s := by
  induction vs generalizing s with
  | nil => rfl
  | cons v vs ih =>
    obtain ⟨hv, hvs⟩ := List.forall_mem_cons.1 h
    have hfirst : overlayFrom lookup' s v = overlayFrom lookup s v := by
      rw [overlayFrom, overlayFrom, hv]
    rw [List.foldlM_cons, List.foldlM_cons, hfirst]
    exact bind_congr (ih hvs)

end SettingsVariable

/-! ## One result -/

theorem Text.IsNumeral.unique {bits m n : Nat} {s : String} (hm : IsNumeral bits s m)
    (hn : IsNumeral bits s n) : m = n := by
  rw [← readNatural_eq_some_iff] at hm hn
  exact Option.some.inj (hm.symm.trans hn)

attribute [ext] RetryPolicy Settings

namespace Settings

open Text SettingsVariable

variable {lookup : String → Option String} {s t : Settings}

theorem IsMillis.unique {raw : String} {d e : Duration} (hd : IsMillis raw d)
    (he : IsMillis raw e) : d = e := by
  obtain ⟨m, hm, hd⟩ := hd
  obtain ⟨n, hn, he⟩ := he
  rw [Duration.ext_iff, hd, he, hm.unique hn]

theorem NamesStrategy.unique {raw : String} {a b : Strategy} (ha : NamesStrategy raw a)
    (hb : NamesStrategy raw b) : a = b := by
  rw [← strategy?_eq_some_iff] at ha hb
  exact Option.some.inj (ha.symm.trans hb)

namespace Gives

variable {α : Type} {text : Option String} {Means : String → α → Prop} {unset a b : α}

theorem unique (ha : Gives text Means unset a) (hb : Gives text Means unset b)
    (hmeans : ∀ {raw a b}, Means raw a → Means raw b → a = b) : a = b := by
  cases text with
  | none => exact Eq.trans ha (Eq.symm hb)
  | some raw => exact hmeans ha hb

/-- A variable that gives its field something is well formed. -/
theorem not_isMalformed {key : String} {form : Form} (h : Gives (lookup key) Means unset a)
    (hform : ∀ raw, Means raw a → form.Admits raw) : ¬ IsMalformed lookup (key, form) := by
  rintro ⟨raw, hraw, hmalformed⟩
  dsimp only at hraw
  rw [hraw] at h
  exact hmalformed (hform raw h)

end Gives

namespace IsOverlaid

/-- Variables overlay the default settings in one way only. -/
theorem unique (hs : IsOverlaid lookup s) (ht : IsOverlaid lookup t) : s = t := by
  have hbase := hs.base.unique ht.base IsMillis.unique
  have hcap := ht.cap
  rw [← hbase] at hcap
  obtain ⟨hjitter, hthreshold, hpressure⟩ := hs.others
  obtain ⟨hjitter', hthreshold', hpressure'⟩ := ht.others
  have hpolicy : s.retryPolicy = t.retryPolicy :=
    RetryPolicy.ext hbase (hs.cap.unique hcap IsMillis.unique)
      (hs.strategy.unique ht.strategy NamesStrategy.unique) (hjitter.trans hjitter'.symm)
  exact Settings.ext (hs.name.unique ht.name fun ha hb => ha.trans hb.symm)
    (hs.batch.unique ht.batch IsNumeral.unique)
    (hs.lockDuration.unique ht.lockDuration IsMillis.unique)
    (hs.workers.unique ht.workers IsNumeral.unique) (hs.queue.unique ht.queue IsNumeral.unique)
    (hs.defaultRetries.unique ht.defaultRetries IsNumeral.unique) hpolicy
    (hs.limit.unique ht.limit IsMillis.unique)
    (hs.pollInterval.unique ht.pollInterval IsMillis.unique)
    (hs.maxIdle.unique ht.maxIdle IsMillis.unique) (hthreshold.trans hthreshold'.symm)
    (hpressure.trans hpressure'.symm)

/-- Where the variables overlay the default settings, none is malformed. -/
theorem not_isMalformed (h : IsOverlaid lookup s) : ∀ v ∈ forms, ¬ IsMalformed lookup v := by
  have hnumber : ∀ {bits raw n}, IsNumeral bits raw n → (Form.number bits).Admits raw :=
    fun hn => ⟨_, hn⟩
  have hmillis : ∀ {raw d}, IsMillis raw d → (Form.number 64).Admits raw :=
    fun ⟨n, hn, _⟩ => ⟨n, hn⟩
  unfold forms
  simp only [List.forall_mem_cons]
  exact ⟨h.name.not_isMalformed fun _ _ => trivial, h.batch.not_isMalformed fun _ => hnumber,
    h.lockDuration.not_isMalformed fun _ => hmillis, h.workers.not_isMalformed fun _ => hnumber,
    h.queue.not_isMalformed fun _ => hnumber, h.defaultRetries.not_isMalformed fun _ => hnumber,
    h.strategy.not_isMalformed fun _ hs => ⟨_, hs⟩, h.base.not_isMalformed fun _ => hmillis,
    h.cap.not_isMalformed fun _ => hmillis, h.limit.not_isMalformed fun _ => hmillis,
    h.pollInterval.not_isMalformed fun _ => hmillis, h.maxIdle.not_isMalformed fun _ => hmillis,
    nofun⟩

end IsOverlaid

/-- Variables configure one result only. -/
theorem Configures.unique {r r' : Except SettingsError Settings} (h : Configures lookup r)
    (h' : Configures lookup r') : r = r' := by
  cases h with
  | malformed hfirst hraw =>
    cases h' with
    | malformed hfirst' hraw' =>
      cases hfirst.unique hfirst'
      cases hraw.symm.trans hraw'
      rfl
    | flawed hs | accepted hs => exact absurd hfirst.holds (hs.not_isMalformed _ hfirst.mem)
  | flawed hs hflaw =>
    cases h' with
    | malformed hfirst => exact absurd hfirst.holds (hs.not_isMalformed _ hfirst.mem)
    | flawed ht hflaw' =>
      cases hs.unique ht
      rw [hflaw.unique hflaw']
    | accepted ht hsound =>
      cases hs.unique ht
      exact absurd hflaw.holds (hsound _ hflaw.mem)
  | accepted hs hsound =>
    cases h' with
    | malformed hfirst => exact absurd hfirst.holds (hs.not_isMalformed _ hfirst.mem)
    | flawed ht hflaw =>
      cases hs.unique ht
      exact absurd hflaw.holds (hsound _ hflaw.mem)
    | accepted ht => rw [hs.unique ht]

/-- What is read from variables is what they configure. -/
theorem configures_ofVariables (lookup : String → Option String) :
    Configures lookup (ofVariables lookup) := by
  rw [ofVariables]
  cases hread : all.foldlM (overlayFrom lookup) default with
  | error e =>
    obtain ⟨key, form, raw, hfirst, hraw, rfl⟩ := foldlM_overlayFrom_eq_error all_fit hread
    exact .malformed hfirst hraw
  | ok s =>
    have hs := isOverlaid_of_foldlM hread
    cases hflaw : s.flaw? with
    | some flaw =>
      have hrefused : s.validate = .error (.invalid flaw) := by rw [validate, hflaw]
      show Configures lookup (s.validate >>= fun _ => .ok s)
      rw [hrefused]
      exact .flawed hs (flaw?_eq_some_iff.1 hflaw)
    | none =>
      have haccepted : s.validate = .ok () := by rw [validate, hflaw]
      show Configures lookup (s.validate >>= fun _ => .ok s)
      rw [haccepted]
      refine .accepted hs fun flaw hmem hbroken => ?_
      obtain ⟨first, hfirst⟩ := exists_firstIn hmem hbroken
      rw [flaw?_eq_some_iff.2 hfirst] at hflaw
      cases hflaw

/-- **Variables are read by their grammar.**  Whatever the variables are, reading them gives what they
configure, and nothing else: the first malformed variable, in the order of reading, is refused with its
key and its text as it stands; if none is malformed, the default settings are overlaid field by field,
and the first rule that they break is refused; settings that keep all rules are the result.  Variables
that no field is read from do not matter. -/
theorem ofVariables_iff (lookup : String → Option String) :
    (∀ r, ofVariables lookup = r ↔ Configures lookup r) ∧
      ∀ lookup', (∀ key ∈ forms.map Prod.fst, lookup' key = lookup key) →
        ofVariables lookup' = ofVariables lookup := by
  refine ⟨fun r => ⟨fun h => h ▸ configures_ofVariables lookup,
    (configures_ofVariables lookup).unique⟩, fun lookup' hsame => ?_⟩
  have hkeys : ∀ v ∈ all, lookup' v.key = lookup v.key := fun v hv =>
    hsame v.key (show v.key ∈ all.map key from List.mem_map_of_mem hv)
  rw [ofVariables, ofVariables, foldlM_overlayFrom_congr all hkeys]

/-- Two malformed variables, and one that no field is read from. -/
def crowded (key : String) : Option String :=
  if key = "JOBFORGE_MAX_POOL_SIZE" then some "many"
  else if key = "JOBFORGE_BATCH_SIZE" then some " -0 "
  else if key = "JOBFORGE_ENGINE" then some "3"
  else none

/-- The batch size is read first; a minus is not part of the grammar, even before a zero. -/
theorem first_malformed_variable_refused :
    Configures crowded (.error (.invalidValue "JOBFORGE_BATCH_SIZE" " -0 ")) ∧
      ofVariables (fun key => if key = "JOBFORGE_ENGINE" then none else crowded key) =
        ofVariables crowded :=
  ⟨((ofVariables_iff crowded).1 _).1 (by rfl),
    (ofVariables_iff crowded).2 _ (by decide +kernel)⟩

/-- A retry delay of 20 seconds lifts the cap, and a cap of its own takes it back. -/
example :
    (ofVariables fun key => if key = "JOBFORGE_RETRY_DELAY_MS" then some "\t+020000 " else none).map
      (fun s => s.retryPolicy.cap.millis) = .ok 20000 ∧
    ofVariables (fun key =>
      if key = "JOBFORGE_RETRY_DELAY_MS" then some "20000"
      else if key = "JOBFORGE_MAX_RETRY_DELAY_MS" then some "19999" else none) =
        .error (.invalid .capBelowBase) :=
  ⟨rfl, rfl⟩

end Settings

end DeferredWork
