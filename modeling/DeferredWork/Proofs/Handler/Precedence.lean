import Mathlib.Data.List.Induction
import DeferredWork.Handler

set_option autoImplicit false

/-!
# Which handler takes a kind of job

What a registry answers depends on the handler last registered under each pattern and on nothing
else: the exact name comes first, then the longest category in which the kind lies, then `*`
(`Registry.resolve_follows_precedence`).  The longest category is unique, since two categories of
equal length in which one kind lies are equal; so neither the order of the registrations nor the
order in which the entries are visited can be seen.
-/

namespace DeferredWork.Registry

variable {H : Type 1}

/-! ## The rule -/

/-- The kind starts with the category's name and a point. -/
def LiesIn (kind category : String) : Prop := ∃ rest, kind = category ++ "." ++ rest

/-- The handler of a kind, if `under` says which handler each pattern has. -/
inductive Assigns (under : String → Option H) (kind : String) : Option H → Prop
  | exact {handler : H} (hname : under kind = some handler) : Assigns under kind (some handler)
  | category {handler : H} (hname : under kind = none) (category : String)
      (hlies : LiesIn kind category) (hunder : under (category ++ ".*") = some handler)
      (hlongest : ∀ other, LiesIn kind other → under (other ++ ".*") ≠ none →
        other.length ≤ category.length) :
      Assigns under kind (some handler)
  | any (hname : under kind = none)
      (hnone : ∀ category, LiesIn kind category → under (category ++ ".*") = none) :
      Assigns under kind (under "*")

/-- A kind lies in at most one category of each length. -/
theorem LiesIn.eq_of_length {kind p q : String} (hp : LiesIn kind p) (hq : LiesIn kind q)
    (hlength : p.length = q.length) : p = q := by
  obtain ⟨r, rfl⟩ := hp
  obtain ⟨s, hs⟩ := hq
  have hchars : p.toList ++ (['.'] ++ r.toList) = q.toList ++ (['.'] ++ s.toList) := by
    simpa [String.toList_append] using congrArg String.toList hs
  refine String.ext (List.append_inj_left hchars ?_)
  rw [String.length_toList, String.length_toList, hlength]

/-- The rule leaves no choice. -/
theorem Assigns.unique {under : String → Option H} {kind : String} {a b : Option H}
    (ha : Assigns under kind a) (hb : Assigns under kind b) : a = b := by
  cases ha with
  | exact hname =>
    cases hb with
    | exact hname' => rw [← hname, hname']
    | category hname' => rw [hname] at hname'; cases hname'
    | any hname' => rw [hname] at hname'; cases hname'
  | category hname p hp hunder hlongest =>
    cases hb with
    | exact hname' => rw [hname] at hname'; cases hname'
    | category _ q hq hunder' hlongest' =>
      have hpq : p.length ≤ q.length := hlongest' p hp (by rw [hunder]; exact nofun)
      have hqp : q.length ≤ p.length := hlongest q hq (by rw [hunder']; exact nofun)
      have hsame : p = q := hp.eq_of_length hq (Nat.le_antisymm hpq hqp)
      rw [← hunder, ← hunder', hsame]
    | any _ hnone => rw [hnone p hp] at hunder; cases hunder
  | any hname hnone =>
    cases hb with
    | exact hname' => rw [hname] at hname'; cases hname'
    | category _ q hq hunder => rw [hnone q hq] at hunder; cases hunder
    | any => rfl

/-! ## Categories -/

theorem category?_eq_some_iff {pattern : String} {category : List Char} :
    category? pattern = some category ↔ pattern = String.ofList category ++ ".*" := by
  constructor
  · intro h
    unfold category? at h
    split at h
    · rename_i rest hrest
      cases h
      refine String.ext ?_
      rw [← List.reverse_reverse pattern.toList, hrest]
      simp [String.toList_append]
    · cases h
  · rintro rfl
    simp [category?, String.toList_append]

theorem isWithin_iff {kind : String} {category : List Char} :
    isWithin kind category = true ↔ LiesIn kind (String.ofList category) := by
  rw [isWithin, List.isPrefixOf_iff_prefix]
  constructor
  · rintro ⟨rest, hrest⟩
    exact ⟨String.ofList rest, String.ext (by simp [String.toList_append, ← hrest])⟩
  · rintro ⟨rest, rfl⟩
    exact ⟨rest.toList, by simp [String.toList_append]⟩

/-- A pattern covers a kind exactly if it is that of a category in which the kind lies. -/
theorem coverage?_eq_some_iff {kind pattern : String} {n : Nat} :
    coverage? kind pattern = some n ↔
      ∃ category, pattern = category ++ ".*" ∧ LiesIn kind category ∧ category.length = n := by
  constructor
  · intro h
    unfold coverage? at h
    split at h
    · rename_i category hcategory
      split at h
      · rename_i hwithin
        cases h
        exact ⟨_, category?_eq_some_iff.1 hcategory, isWithin_iff.1 hwithin, by simp⟩
      · cases h
    · cases h
  · rintro ⟨category, rfl, hlies, rfl⟩
    have hcategory : category? (category ++ ".*") = some category.toList :=
      category?_eq_some_iff.2 (by rw [String.ofList_toList])
    have hwithin : isWithin kind category.toList = true :=
      isWithin_iff.2 (by rwa [String.ofList_toList])
    rw [← String.length_toList]
    simp only [coverage?, hcategory, hwithin, if_true]

/-! ## Resolving a kind -/

/-- A registry resolves kinds by the rule, from the handlers that its patterns have. -/
theorem assigns_resolve (r : Registry H) (kind : String) :
    Assigns r.get? kind (r.resolve kind) := by
  unfold resolve
  cases hname : r.get? kind with
  | some handler => exact .exact hname
  | none =>
    have hcovering : ∀ category handler, LiesIn kind category →
        r.get? (category ++ ".*") = some handler →
        (category ++ ".*", handler) ∈ r.entries ∧
          coverage? kind (category ++ ".*") = some category.length := by
      intro category handler hlies hunder
      exact ⟨get?_eq_some_iff.1 hunder, coverage?_eq_some_iff.2 ⟨category, rfl, hlies, rfl⟩⟩
    cases hbest : bestCategory kind r.entries with
    | none =>
      refine .any hname fun category hlies => ?_
      cases hunder : r.get? (category ++ ".*") with
      | none => rfl
      | some handler =>
        obtain ⟨hmem, hcovers⟩ := hcovering category handler hlies hunder
        rw [bestCategory_eq_none_iff.1 hbest _ hmem] at hcovers
        cases hcovers
    | some best =>
      obtain ⟨n, handler⟩ := best
      obtain ⟨⟨pattern, hmem, hcovers⟩, hlongest⟩ := of_bestCategory_eq_some hbest
      obtain ⟨category, rfl, hlies, rfl⟩ := coverage?_eq_some_iff.1 hcovers
      refine .category hname category hlies (get?_eq_some_iff.2 hmem) fun other hother hunder => ?_
      obtain ⟨otherHandler, hunder⟩ := Option.ne_none_iff_exists'.1 hunder
      obtain ⟨hmem, hcovers⟩ := hcovering other otherHandler hother hunder
      exact hlongest _ hmem _ hcovers

/-- Registries with the same handlers under the same patterns resolve every kind alike. -/
theorem resolve_congr {r r' : Registry H} (h : ∀ pattern, r.get? pattern = r'.get? pattern)
    (kind : String) : r.resolve kind = r'.resolve kind := by
  have hsame : r.get? = r'.get? := funext h
  exact (assigns_resolve r kind).unique (hsame ▸ assigns_resolve r' kind)

/-! ## Sequences of registrations -/

/-- The registry after a sequence of registrations. -/
def registerAll (calls : List (String × H)) : Registry H :=
  calls.foldl (fun r call => r.register call.1 call.2) empty

/-- The handler that was registered last under exactly a pattern. -/
def lastUnder (calls : List (String × H)) (pattern : String) : Option H :=
  calls.reverse.lookup pattern

/-- A pattern has the handler that was registered last under it. -/
theorem get?_registerAll (calls : List (String × H)) (pattern : String) :
    (registerAll calls).get? pattern = lastUnder calls pattern := by
  induction calls using List.reverseRecOn with
  | nil => rfl
  | append_singleton calls call ih =>
    have hlast : registerAll (calls ++ [call]) = (registerAll calls).register call.1 call.2 :=
      List.foldl_append ..
    have hunder : lastUnder (calls ++ [call]) pattern = (call :: calls.reverse).lookup pattern := by
      rw [lastUnder, List.reverse_concat]
    rw [hlast, get?_register, ih, hunder]
    by_cases h : pattern = call.1
    · subst h
      rw [if_pos rfl]
      exact List.lookup_cons_self.symm
    · rw [if_neg h, List.lookup_cons, beq_eq_false_iff_ne.2 h]
      rfl

/-- After any sequence of registrations a kind has the handler that was registered last under
exactly its name; without one, that of the longest category in which it lies; without one, that
under `*`.  Any other sequence that leaves the same handlers under the same patterns resolves the
kind alike, and so does any order of the entries. -/
theorem resolve_follows_precedence (calls : List (String × H)) (kind : String) :
    (∀ found, (registerAll calls).resolve kind = found ↔ Assigns (lastUnder calls) kind found) ∧
      (∀ others : List (String × H),
        (∀ pattern, lastUnder others pattern = lastUnder calls pattern) →
        (registerAll others).resolve kind = (registerAll calls).resolve kind) ∧
      ∀ r : Registry H, r.entries.Perm (registerAll calls).entries →
        r.resolve kind = (registerAll calls).resolve kind := by
  have hunder : (registerAll calls).get? = lastUnder calls := funext (get?_registerAll calls)
  have hassigned : Assigns (lastUnder calls) kind ((registerAll calls).resolve kind) :=
    hunder ▸ assigns_resolve (registerAll calls) kind
  refine ⟨fun found => ⟨fun h => h ▸ hassigned, hassigned.unique⟩, ?_, ?_⟩
  · intro others hsame
    refine resolve_congr (fun pattern => ?_) kind
    rw [get?_registerAll, get?_registerAll, hsame]
  · intro r hperm
    exact resolve_congr (lookup_eq_of_perm r.nodup hperm) kind

/-- Two categories and a catch-all, the longer category last. -/
def postOffice : List (String × ULift.{1} Nat) :=
  [("*", ⟨0⟩), ("mail.*", ⟨1⟩), ("mail.bulk.*", ⟨2⟩)]

/-- The same in another order, and with a handler that is replaced. -/
def reorganized : List (String × ULift.{1} Nat) :=
  [("mail.bulk.*", ⟨7⟩), ("mail.*", ⟨1⟩), ("mail.bulk.*", ⟨2⟩), ("*", ⟨0⟩)]

theorem lastUnder_reorganized (pattern : String) :
    lastUnder reorganized pattern = lastUnder postOffice pattern := by
  by_cases hany : pattern = "*"
  · rw [hany]
    rfl
  · by_cases hbulk : pattern = "mail.bulk.*"
    · rw [hbulk]
      rfl
    · simp [lastUnder, reorganized, postOffice, List.lookup_cons, beq_eq_false_iff_ne.2 hany,
        beq_eq_false_iff_ne.2 hbulk]

/-- Bulk mail goes to the handler of the longer category, in either order. -/
theorem bulk_mail_goes_to_longer_category :
    (∀ pattern, lastUnder reorganized pattern = lastUnder postOffice pattern) ∧
      Assigns (lastUnder postOffice) "mail.bulk.daily" (some ⟨2⟩) ∧
      (registerAll reorganized).resolve "mail.bulk.daily" =
        (registerAll postOffice).resolve "mail.bulk.daily" := by
  obtain ⟨hrule, hothers, -⟩ := resolve_follows_precedence postOffice "mail.bulk.daily"
  exact ⟨lastUnder_reorganized, (hrule _).1 rfl, hothers reorganized lastUnder_reorganized⟩

end DeferredWork.Registry
