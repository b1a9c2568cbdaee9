import DeferredWork.Proofs.Transaction.Conduct

set_option autoImplicit false

/-!
# What transactions hand in

A command that goes well has made some calls and gathered some writes by then (`Command.Gathers`),
and what it has gathered follows from its text, one rule for each kind of step.  A transaction hands
in what its command has gathered and nothing else (`Transaction.Frame.keeps_run_handsIn`).  So it
keeps a conduct if its body obeys a discipline, and the conduct lets batches through that the
discipline allows (`Transaction.Frame.keeps_run`).
-/

namespace DeferredWork

variable {ε : Type → Type} {α β : Type}

namespace Context

theorem ServesAll.append {ctx ctx₁ ctx' : Context} {talk more : List (Exchange (Request ε))}
    {calls later : List (Exchange (Call ε))} (h : ctx.ServesAll talk calls ctx₁)
    (hmore : ctx₁.ServesAll more later ctx') :
    ctx.ServesAll (talk ++ more) (calls ++ later) ctx' := by
  induction h with
  | nil ctx => exact hmore
  | cons head rest ih =>
    rw [List.append_assoc]
    exact .cons head (ih hmore)

theorem Serves.all {ctx ctx' : Context} {exchange : Exchange (Request ε)}
    {calls : List (Exchange (Call ε))} (h : ctx.Serves exchange calls ctx') :
    ctx.ServesAll [exchange] calls ctx' := by
  have hall := ServesAll.cons h (.nil ctx')
  rwa [List.append_nil] at hall

/-- The calls that are made for a request, and what is gathered then, by the kind of the request. -/
def Served (ctx : Context) (calls : List (Exchange (Call ε))) (ctx' : Context) :
    Exchange (Request ε) → Prop
  | ⟨.find id, .ok none⟩ => calls = [⟨.store (.get id), .ok none⟩] ∧ ctx' = ctx
  | ⟨.find id, .ok (some row)⟩ =>
    row.id = id ∧ calls = [⟨.store (.get id), .ok (some row)⟩] ∧ ctx' = ctx.observe row
  | ⟨.now, now⟩ => now = ctx.now ∧ calls = [] ∧ ctx' = ctx
  | ⟨.stage change, _⟩ => calls = [] ∧ ctx' = ctx.stage change
  | ⟨.draw, id⟩ => calls = [⟨.draw, id⟩] ∧ ctx' = ctx
  | _ => True

theorem Serves.served {ctx ctx' : Context} {exchange : Exchange (Request ε)}
    {calls : List (Exchange (Call ε))} (h : ctx.Serves exchange calls ctx') :
    ctx.Served calls ctx' exchange := by
  cases h with
  | found row => exact ⟨rfl, rfl, rfl⟩
  | missed id => exact ⟨rfl, rfl⟩
  | now => exact ⟨rfl, rfl, rfl⟩
  | stage change => exact ⟨rfl, rfl⟩
  | draw id => exact ⟨rfl, rfl⟩
  | _ => trivial

/-- A conversation is served by serving its first request, and then the others. -/
theorem ServesAll.of_cons {ctx ctx' : Context} {exchange : Exchange (Request ε)}
    {talk : List (Exchange (Request ε))} {calls : List (Exchange (Call ε))}
    (h : ctx.ServesAll (exchange :: talk) calls ctx') :
    ∃ first more ctx₁, calls = first ++ more ∧ ctx.Served first ctx₁ exchange ∧
      ctx₁.ServesAll talk more ctx' := by
  cases h with
  | cons head rest => exact ⟨_, _, _, rfl, head.served, rest⟩

theorem now_observe (ctx : Context) (row : Job) : (ctx.observe row).now = ctx.now := by
  unfold observe
  split <;> rfl

theorem Serves.now_eq {ctx ctx' : Context} {exchange : Exchange (Request ε)}
    {calls : List (Exchange (Call ε))} (h : ctx.Serves exchange calls ctx') :
    ctx'.now = ctx.now := by
  cases h with
  | found row => exact now_observe ctx row
  | _ => rfl

theorem ServesAll.now_eq {ctx ctx' : Context} {talk : List (Exchange (Request ε))}
    {calls : List (Exchange (Call ε))} (h : ctx.ServesAll talk calls ctx') :
    ctx'.now = ctx.now := by
  induction h with
  | nil ctx => rfl
  | cons head rest ih => exact ih.trans head.now_eq

theorem writes_observe (ctx : Context) (row : Job) : (ctx.observe row).writes = ctx.writes := by
  unfold observe
  split <;> rfl

theorem writes_stage (ctx : Context) (change : Staged) :
    (ctx.stage change).writes = ctx.writes ++ [ctx.writeOf change] := rfl

theorem now_stage (ctx : Context) (change : Staged) : (ctx.stage change).now = ctx.now := rfl

/-- What was staged does not matter to the revisions on which later writes rely. -/
theorem writeOf_stage (ctx : Context) (change later : Staged) :
    (ctx.stage change).writeOf later = ctx.writeOf later := by
  cases later <;> rfl

/-- A body that read a row and then stages an update of it relies on the revision of that row. -/
theorem writeOf_update_observe (now : Instant) {row job : Job} (hname : job.id = row.id) :
    (observe { now := now } row).writeOf (.update job) = .update job (.exactly row.revision) := by
  rw [writeOf, guard, observed?_observe, if_pos hname.symm]
  rfl

theorem writes_first_update (now : Instant) {row job : Job} (hname : job.id = row.id) :
    ((observe { now := now } row).stage (.update job)).writes =
      [.update job (.exactly row.revision)] := by
  rw [writes_stage, writeOf_update_observe now hname, writes_observe]
  rfl

end Context

/-! ## Conversations of bodies -/

namespace Command

theorem leads_bind {x : Command ε α} {f : α → Command ε β} {said : List (Exchange (Request ε))}
    {b : β} (h : (x >>= f).run.Leads said (.done (.ok b))) :
    ∃ said₁ said₂ a, said = said₁ ++ said₂ ∧ x.run.Leads said₁ (.done (.ok a)) ∧
      (f a).run.Leads said₂ (.done (.ok b)) := by
  obtain ⟨said₁, said₂, outcome, rfl, hx, hf⟩ := Interaction.Leads.bind_done h
  cases outcome with
  | error e => cases hf
  | ok a => exact ⟨said₁, said₂, a, rfl, hx, hf⟩

theorem leads_find_bind {id : JobId} {f : Option Job → Command ε β}
    {said : List (Exchange (Request ε))} {b : β}
    (h : (find id >>= f).run.Leads said (.done (.ok b))) :
    ∃ found more, said = ⟨.find id, .ok found⟩ :: more ∧ (f found).run.Leads more (.done (.ok b)) := by
  change Interaction.Leads (.ask (.find id) _) said _ at h
  cases h with
  | @ask _ _ answer _ more _ rest =>
    match answer, rest with
    | .ok found, rest => exact ⟨found, more, rfl, rest⟩
    | .error e, rest => cases rest

theorem leads_stage_bind {change : Staged} {f : Unit → Command ε β}
    {said : List (Exchange (Request ε))} {b : β}
    (h : (stage change >>= f).run.Leads said (.done (.ok b))) :
    ∃ more, said = ⟨.stage change, ()⟩ :: more ∧ (f ()).run.Leads more (.done (.ok b)) := by
  change Interaction.Leads (.ask (.stage change) _) said _ at h
  cases h with
  | @ask _ _ _ _ more _ rest => exact ⟨more, rfl, rest⟩

/-! ## What commands gather -/

/-- From what was gathered before, a command goes well with a value, after some calls, and has
gathered more by then. -/
inductive Gathers (command : Command ε α) (ctx : Context) (a : α) (calls : List (Exchange (Call ε)))
    (ctx' : Context) : Prop
  | mk {said : List (Exchange (Request ε))} (leads : command.run.Leads said (.done (.ok a)))
      (served : ctx.ServesAll said calls ctx')

variable {ctx ctx' : Context} {calls : List (Exchange (Call ε))} {a : α} {b : β}

theorem Gathers.of_pure {a' : α} (h : (pure a : Command ε α).Gathers ctx a' calls ctx') :
    a' = a ∧ calls = [] ∧ ctx' = ctx := by
  obtain ⟨leads, served⟩ := h
  cases leads
  cases served
  exact ⟨rfl, rfl, rfl⟩

theorem Gathers.not_throw {e : TransactionError} :
    ¬ (throw e : Command ε α).Gathers ctx a calls ctx' := by
  rintro ⟨leads, -⟩
  cases leads

theorem Gathers.of_bind {x : Command ε α} {f : α → Command ε β}
    (h : (x >>= f).Gathers ctx b calls ctx') :
    ∃ a calls₁ ctx₁ calls₂, calls = calls₁ ++ calls₂ ∧ x.Gathers ctx a calls₁ ctx₁ ∧
      (f a).Gathers ctx₁ b calls₂ ctx' := by
  obtain ⟨leads, served⟩ := h
  obtain ⟨said₁, said₂, a, rfl, hx, hf⟩ := leads_bind leads
  obtain ⟨ctx₁, calls₁, calls₂, hserved₁, hserved₂, rfl⟩ := served.split
  exact ⟨a, calls₁, ctx₁, calls₂, rfl, ⟨hx, hserved₁⟩, ⟨hf, hserved₂⟩⟩

theorem Gathers.of_find_bind {id : JobId} {f : Option Job → Command ε β}
    (h : (find id >>= f).Gathers ctx b calls ctx') :
    (∃ rest, calls = ⟨.store (.get id), .ok none⟩ :: rest ∧ (f none).Gathers ctx b rest ctx') ∨
    ∃ row rest, row.id = id ∧ calls = ⟨.store (.get id), .ok (some row)⟩ :: rest ∧
      (f (some row)).Gathers (ctx.observe row) b rest ctx' := by
  obtain ⟨leads, served⟩ := h
  obtain ⟨found, more, rfl, hf⟩ := leads_find_bind leads
  obtain ⟨first, rest, ctx₁, rfl, hfirst, hrest⟩ := served.of_cons
  cases found with
  | none =>
    obtain ⟨rfl, rfl⟩ := hfirst
    exact .inl ⟨rest, rfl, hf, hrest⟩
  | some row =>
    obtain ⟨hname, rfl, rfl⟩ := hfirst
    exact .inr ⟨row, rest, hname, rfl, hf, hrest⟩

theorem Gathers.of_stage_bind {change : Staged} {f : Unit → Command ε β}
    (h : (stage change >>= f).Gathers ctx b calls ctx') :
    (f ()).Gathers (ctx.stage change) b calls ctx' := by
  obtain ⟨leads, served⟩ := h
  obtain ⟨more, rfl, hf⟩ := leads_stage_bind leads
  obtain ⟨first, rest, ctx₁, rfl, ⟨rfl, rfl⟩, hrest⟩ := served.of_cons
  exact ⟨hf, hrest⟩

theorem Gathers.of_stage {change : Staged} {u : Unit}
    (h : (stage (ε := ε) change).Gathers ctx u calls ctx') : ctx' = ctx.stage change := by
  rw [← bind_pure (stage change)] at h
  exact h.of_stage_bind.of_pure.2.2

theorem Gathers.of_now_bind {f : Instant → Command ε β}
    (h : (ask Request.now >>= f).Gathers ctx b calls ctx') :
    (f ctx.now).Gathers ctx b calls ctx' := by
  obtain @⟨said, leads, served⟩ := h
  change Interaction.Leads (.ask .now _) said _ at leads
  cases leads with
  | ask hf =>
    obtain ⟨first, rest, ctx₁, rfl, ⟨rfl, rfl, rfl⟩, hrest⟩ := served.of_cons
    exact ⟨hf, hrest⟩

theorem Gathers.of_draw_bind {f : Uuid → Command ε β}
    (h : (ask Request.draw >>= f).Gathers ctx b calls ctx') :
    ∃ id rest, calls = ⟨.draw, id⟩ :: rest ∧ (f id).Gathers ctx b rest ctx' := by
  obtain @⟨said, leads, served⟩ := h
  change Interaction.Leads (.ask .draw _) said _ at leads
  cases leads with
  | ask hf =>
    obtain ⟨first, rest, ctx₁, rfl, ⟨rfl, rfl⟩, hrest⟩ := served.of_cons
    exact ⟨_, rest, rfl, hf, hrest⟩

theorem Gathers.of_raiseFor_bind {job : Job} {message : String} {details : Option String}
    {f : Unit → Command ε β} (h : (raiseFor job message details >>= f).Gathers ctx b calls ctx') :
    ∃ id rest, (f ()).Gathers
      (ctx.stage (.raise (.forJob id job message details ctx.now))) b rest ctx' := by
  obtain ⟨u, calls₁, ctx₁, calls₂, rfl, hraise, hf⟩ := h.of_bind
  obtain ⟨id, rest, -, hstage⟩ := hraise.of_now_bind.of_draw_bind
  obtain rfl := hstage.of_stage
  exact ⟨id, calls₂, hf⟩

theorem Gathers.of_ofHandling_bind {handling : Handling ε} {f : Unit → Command ε β}
    (h : (ofHandling handling >>= f).Gathers ctx b calls ctx') :
    ∃ said calls₁ ctx₁ calls₂, calls = calls₁ ++ calls₂ ∧
      handling.run.Leads said (.done (.ok ())) ∧ ctx.ServesAll said calls₁ ctx₁ ∧
      (f ()).Gathers ctx₁ b calls₂ ctx' := by
  obtain ⟨u, calls₁, ctx₁, calls₂, rfl, ⟨leads, served⟩, hf⟩ := h.of_bind
  obtain ⟨said₁, said₂, outcome, rfl, hhandling, hrest⟩ := Interaction.Leads.bind_done leads
  cases outcome with
  | error e => cases hrest
  | ok value =>
    cases hrest
    rw [List.append_nil] at served
    exact ⟨said₁, calls₁, ctx₁, calls₂, rfl, hhandling, served, hf⟩

end Command

/-- What a disciplined body gathers beyond what was there before is allowed by the rows that it was
told of. -/
theorem Interaction.Obeys.gathered {R : List Job → Staged → Prop} {P : List Job → Write → Prop}
    {body : Interaction (Request ε) α} {a : α} {seen known : List Job}
    {said : List (Exchange (Request ε))} {ctx ctx' : Context} {calls : List (Exchange (Call ε))}
    (hobeys : body.Obeys (.ofStaged R) seen) (hcarries : Transaction.Carries R P)
    (hleads : body.Leads said (.done a)) (hserved : ctx.ServesAll said calls ctx')
    (hnotes : ctx.Notes seen) (hseen : seen ⊆ known) :
    ∃ own, ctx'.writes = ctx.writes ++ own ∧
      ∀ w ∈ own, P (known ++ calls.flatMap Exchange.told) w := by
  induction hserved generalizing body seen known with
  | nil ctx => exact ⟨[], (List.append_nil _).symm, List.forall_mem_nil _⟩
  | @cons ctx ctx₁ ctx' exchange first more talk head rest ih =>
    cases hleads with
    | @ask _ q b next _ _ hnext =>
      cases hobeys with
      | ask allowed hrest =>
        have hmore : seen ++ Exchange.finds ⟨q, b⟩ ⊆ known ++ Exchange.finds ⟨q, b⟩ :=
          List.append_subset.2 ⟨fun row hrow => List.mem_append_left _ (hseen hrow),
            List.subset_append_right _ _⟩
        obtain ⟨own, hwrites, hown⟩ :=
          ih (hrest b head.faithful) hnext (head.notes hnotes) hmore
        rw [List.flatMap_append, head.told, ← List.append_assoc]
        rw [head.writes, List.append_assoc] at hwrites
        refine ⟨_, hwrites, List.forall_mem_append.2 ⟨fun w hw => ?_, hown⟩⟩
        obtain ⟨change, hstaged, rfl⟩ := Option.map_eq_some_iff.1 (Option.mem_toList.1 hw)
        have hchange := hcarries.write hnotes (Discipline.allows_staged allowed hstaged)
        refine hcarries.mono (fun row hrow => ?_) hchange
        exact List.mem_append_left _ (List.mem_append_left _ (hseen hrow))

/-! ## Batches -/

namespace Transaction

/-- A transaction of some time hands in a batch after some calls: its command has gone well and has
gathered the batch. -/
inductive HandsIn (command : Command ε α) (now : Instant) (calls : List (Exchange (Call ε)))
    (ws : List Write) : Prop
  | mk {a : α} {ctx : Context} (gathers : command.Gathers { now := now } a calls ctx)
      (writes : ctx.writes = ws) (some : ws ≠ [])

variable {before after : List (Exchange (Call ε)) → Prop} {conduct : Conduct ε}

theorem Frame.keeps_runFrom_handsIn (frame : Frame before after) (limit : Duration)
    {command : Command ε α} {now : Instant} {talk : List (Exchange (Call ε))}
    (hallows : ∀ calls ws, before (talk ++ calls) → HandsIn command now calls ws →
      conduct.apply (talk ++ calls) ws)
    {body : Interaction (Request ε) (Except TransactionError α)} {ctx : Context}
    {said : List (Exchange (Request ε))} {calls : List (Exchange (Call ε))}
    (hleads : command.run.Leads said body) (hserved : Context.ServesAll { now := now } said calls ctx)
    (hbefore : before (talk ++ calls)) :
    (runFrom limit body ctx).Keeps conduct.rules (Frame.close before after) (talk ++ calls) := by
  induction body generalizing ctx said calls with
  | done outcome =>
    cases outcome with
    | error e => exact hbefore
    | ok a =>
      rw [runFrom]
      split
      · exact hbefore
      · exact frame.keeps_commit a hbefore fun hsome =>
          hallows calls _ hbefore ⟨⟨hleads, hserved⟩, rfl, hsome⟩
  | abort reason => exact hbefore
  | ask q next ih =>
    refine frame.keeps_ask limit hbefore fun {b more ctx'} served hcalls => ?_
    rw [List.append_assoc] at hcalls ⊢
    exact ih b (hleads.append (.ask (.stop _))) (hserved.append served.all) hcalls

/-- A transaction keeps a conduct that lets through what its command hands in. -/
theorem Frame.keeps_run_handsIn (frame : Frame before after) (limit : Duration)
    {command : Command ε α} {talk : List (Exchange (Call ε))}
    (hallows : ∀ now calls ws, before (talk ++ ⟨.clock, now⟩ :: calls) →
      HandsIn command now calls ws → conduct.apply (talk ++ ⟨.clock, now⟩ :: calls) ws)
    (hbefore : before talk) :
    (run limit command).Keeps conduct.rules (Frame.close before after) talk := by
  refine ⟨trivial, fun now _ => ?_⟩
  have hclock : before ((talk ++ [⟨.clock, now⟩]) ++ []) := by
    rw [List.append_nil]
    exact frame.inner .clock now rfl hbefore
  have hafter : ∀ calls ws, before ((talk ++ [⟨.clock, now⟩]) ++ calls) →
      HandsIn command now calls ws → conduct.apply ((talk ++ [⟨.clock, now⟩]) ++ calls) ws := by
    intro calls ws hbefore hhands
    rw [List.append_assoc] at hbefore ⊢
    exact hallows now calls ws hbefore hhands
  have hrun := frame.keeps_runFrom_handsIn limit hafter (.stop _) (.nil _) hclock
  rwa [List.append_nil] at hrun

variable {R : List Job → Staged → Prop} {P : List Job → Write → Prop}

/-- What a disciplined command hands in is allowed by the rows that it was told of. -/
theorem HandsIn.allowed {command : Command ε α} {now : Instant} {calls : List (Exchange (Call ε))}
    {ws : List Write} (h : HandsIn command now calls ws) (hcarries : Carries R P)
    (hobeys : command.run.Obeys (.ofStaged R) []) : ∀ w ∈ ws, P (calls.flatMap Exchange.told) w := by
  obtain ⟨⟨leads, served⟩, rfl, -⟩ := h
  obtain ⟨own, hwrites, hown⟩ :=
    hobeys.gathered hcarries leads served (fun _ => rfl) (List.nil_subset [])
  rw [hwrites]
  exact hown

/-- A transaction whose body obeys a discipline keeps a conduct that lets through what the
discipline allows. -/
theorem Frame.keeps_run (frame : Frame before after) (hcarries : Carries R P)
    (hallows : ∀ {talk : List (Exchange (Call ε))} {ws : List Write}, before talk →
      (∀ w ∈ ws, P (talk.flatMap Exchange.told) w) → conduct.apply talk ws)
    (limit : Duration) {command : Command ε α} (h : command.run.Obeys (.ofStaged R) [])
    {talk : List (Exchange (Call ε))} (hbefore : before talk) :
    (run limit command).Keeps conduct.rules (Frame.close before after) talk := by
  refine frame.keeps_run_handsIn limit (fun now calls ws hcalls hhands => ?_) hbefore
  refine hallows hcalls fun w hw => hcarries.mono ?_ (hhands.allowed hcarries h w hw)
  rw [List.flatMap_append, List.flatMap_cons]
  exact fun row hrow => List.mem_append_right _ (List.mem_append_right _ hrow)

end Transaction

end DeferredWork
