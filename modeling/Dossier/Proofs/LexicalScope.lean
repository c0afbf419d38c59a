import Dossier.Definition.Validation
import Dossier.Proofs.Scoping
import Mathlib.Data.List.Infix

/-! Lexical lookup of submodels. Expansion and the lexical reading resolve the same
references alike as long as each declaration found stands in a list textually around
its reference, and part at the first reference of which that does not hold. -/
namespace Dossier

/-! ### The references that a run meets -/

/-- A reference as it is met: what is around it, and where it stands. -/
structure Lookup where
  around : Surroundings
  schema : String
  path : String
  name : String

/-- A reference and the declaration that it was resolved to. -/
structure Resolution where
  schema : String
  path : String
  name : String
  found : Option Position
deriving DecidableEq

def Lookup.found? (lookup : Lookup) : Option Position := (lookup.around.find? lookup.name).map Prod.fst

def Lookup.resolution (lookup : Lookup) : Resolution :=
  ⟨lookup.schema, lookup.path, lookup.name, lookup.found?⟩

/-- The position of the innermost open declaration. -/
def Surroundings.inside (around : Surroundings) : Position := (around.opened.head?.map Prod.fst).getD []

/-- What is found is declared by the declaration that the reference stands in, or by
one textually around that. -/
def Lookup.IsLexical (lookup : Lookup) : Prop :=
  ∀ position ∈ lookup.found?, position.dropLast <+: lookup.around.inside

/-- The references met while one reference is resolved, itself among them. -/
abbrev Tracer := (schema path name : String) → Promotions → List Lookup

/-- What follows an outcome; nothing follows a failure. -/
def following {α : Type} (outcome : Except CompileError α) (next : α → List Lookup) : List Lookup :=
  match outcome with
  | .ok value => next value
  | .error _ => []

mutual
def Field.lookups (promote : Promoter) (trace : Tracer) (schema above : String) :
    Field → Promotions → List Lookup
  | ⟨name, token, children⟩, made =>
    match Kind.ofToken token with
    | .submodel target => trace schema s!"{above}{name}" target made
    | .map => lookupsAll promote trace schema s!"{above}{name}." children made
    | _ => []
def Field.lookupsAll (promote : Promoter) (trace : Tracer) (schema above : String) :
    List Field → Promotions → List Lookup
  | [], _ => []
  | field :: rest, made =>
    field.lookups promote trace schema above made ++
      following (field.resolve promote schema above made) fun (_, made) =>
        lookupsAll promote trace schema above rest made
end

/-- The references that a promotion meets, in the order it meets them. -/
def lookupsBy (scoping : Scoping) : (budget : Nat) → Surroundings → Tracer
  | budget, around, schema, path, name, made =>
    ⟨around, schema, path, name⟩ ::
      match around.find? name with
      | none => []
      | some (position, declaration) =>
        if around.isOpen position then []
        else match made.origins.lookup (derivedName schema name) with
          | some _ => []
          | none =>
            match budget with
            | 0 => []
            | budget + 1 =>
              let inside := around.enterBy scoping name position declaration
              let derived := derivedName schema name
              Field.lookupsAll (promoteBy scoping budget inside) (lookupsBy scoping budget inside)
                derived "" declaration.fields
                { made with origins := (derived, position) :: made.origins }

/-- All references that the expansion of a definition meets. -/
def Declaration.lookups (scoping : Scoping) (definition : Declaration) : List Lookup :=
  Field.lookupsAll (promoteBy scoping definition.countWithin definition.surroundings)
    (lookupsBy scoping definition.countWithin definition.surroundings)
    definition.name "" definition.fields {}

/-- Expansion resolves every reference it meets as the reference expander does, and
has the same outcome. -/
def Declaration.IsLexicallyScoped (definition : Declaration) : Prop :=
  (definition.lookups .stacked).map Lookup.resolution =
      (definition.lookups .lexical).map Lookup.resolution ∧
    definition.expand = definition.expandLexically

/-- The surroundings of one reference in the two runs: the lexical scopes are those of
the stack whose owners are textually around the innermost open declaration, from the
inside out. -/
structure Surroundings.Matches (stacked lexical : Surroundings) : Prop where
  document : lexical.document = stacked.document
  opened : lexical.opened = stacked.opened
  scopes : lexical.scopes = stacked.scopes.filter fun scope => scope.owner <+: stacked.inside
  outwards : lexical.scopes.Pairwise fun nearer further => further.owner.length < nearer.owner.length
  owners : ∀ scope ∈ stacked.scopes, scope.owner = [] ∨ scope.owner ∈ stacked.opened.map Prod.fst

namespace Surroundings.Matches
variable {stacked lexical : Surroundings}

theorem isOpen (related : stacked.Matches lexical) (position : Position) :
    lexical.isOpen position = stacked.isOpen position := by
  simp only [Surroundings.isOpen, related.opened]

theorem cycle (related : stacked.Matches lexical) (name : String) :
    lexical.cycle name = stacked.cycle name := by
  simp only [Surroundings.cycle, related.opened, related.document]

theorem root (definition : Declaration) :
    definition.surroundings.Matches definition.surroundings where
  document := rfl
  opened := rfl
  scopes := by simp [Declaration.surroundings]
  outwards := by simp [Declaration.surroundings]
  owners := by simp [Declaration.surroundings]

/-- A declaration that stands textually around its reference is found in both runs. -/
theorem find?_eq (related : stacked.Matches lexical) {name : String}
    (around : ∀ position ∈ (stacked.find? name).map Prod.fst, position.dropLast <+: stacked.inside) :
    lexical.find? name = stacked.find? name := by
  cases found : stacked.find? name with
  | none =>
    rw [Surroundings.find?, related.scopes]
    refine List.findSome?_eq_none_iff.mpr fun scope member => ?_
    exact List.findSome?_eq_none_iff.mp found scope (List.mem_filter.mp member).1
  | some entry =>
    obtain ⟨position, declaration⟩ := entry
    obtain ⟨nearer, scope, further, split, here, missing⟩ := Surroundings.find?_split found
    obtain ⟨index, same⟩ := Scope.owner_of_find? here
    have inside : scope.owner <+: stacked.inside := by
      have prefixed := around position (by simp [found])
      simpa [same] using prefixed
    rw [Surroundings.find?, related.scopes, split, List.filter_append,
      List.filter_cons_of_pos (by simpa using inside)]
    refine List.findSome?_eq_some_iff.mpr ⟨_, scope, _, rfl, here, fun other member => ?_⟩
    exact missing other (List.mem_filter.mp member).1

/-- A declaration that does not is found in one run at most. -/
theorem find?_ne (related : stacked.Matches lexical) {name : String} {position : Position}
    {declaration : Declaration} (found : stacked.find? name = some (position, declaration))
    (captured : ¬ position.dropLast <+: stacked.inside) :
    (lexical.find? name).map Prod.fst ≠ some position := by
  intro same
  obtain ⟨⟨other, declared⟩, lexically, rfl⟩ := Option.map_eq_some_iff.mp same
  obtain ⟨scope, member, owner⟩ := Surroundings.dropLast_owner lexically
  rw [related.scopes] at member
  have inside : scope.owner <+: stacked.inside := by simpa using (List.mem_filter.mp member).2
  exact captured (owner ▸ inside)

/-- No scope on the stack is owned by a declaration that is not open. -/
theorem owner_ne (related : stacked.Matches lexical) {scope owned : Scope} {index : Nat}
    (closed : stacked.isOpen (scope.owner ++ [index]) = false) (member : owned ∈ stacked.scopes) :
    owned.owner ≠ scope.owner ++ [index] := by
  intro same
  rcases related.owners owned member with root | opened
  · simp [root] at same
  · obtain ⟨entry, present, position⟩ := List.mem_map.mp opened
    have isOpen : stacked.isOpen (scope.owner ++ [index]) = true :=
      List.any_eq_true.mpr ⟨entry, present, by simp [position, same]⟩
    rw [closed] at isOpen
    cases isOpen

section
variable {scope : Scope} {index : Nat} {nearer further : List Scope}

/-- Where the stack is split at a scope that is textually around the reference, so are the lexical
scopes. -/
theorem scopes_split (related : stacked.Matches lexical) (split : stacked.scopes = nearer ++ scope :: further)
    (inside : scope.owner <+: stacked.inside) :
    lexical.scopes = nearer.filter (fun other => other.owner <+: stacked.inside) ++
      scope :: further.filter fun other => other.owner <+: stacked.inside := by
  rw [related.scopes, split, List.filter_append, List.filter_cons_of_pos (by simpa using inside)]

/-- Around a declaration that is not open are only scopes around the declaration it stands in. -/
theorem prefix_owner (related : stacked.Matches lexical)
    (closed : stacked.isOpen (scope.owner ++ [index]) = false) {other : Scope} (member : other ∈ stacked.scopes)
    (around : other.owner <+: scope.owner ++ [index]) : other.owner <+: scope.owner := by
  rcases List.prefix_concat_iff.mp around with same | shorter
  · exact absurd same (related.owner_ne closed member)
  · exact shorter

/-- The scopes nearer than the one that declares it are not around a declaration. -/
theorem filter_nearer (related : stacked.Matches lexical) (split : stacked.scopes = nearer ++ scope :: further)
    (inside : scope.owner <+: stacked.inside) (closed : stacked.isOpen (scope.owner ++ [index]) = false) :
    nearer.filter (fun other => other.owner <+: scope.owner ++ [index]) = [] := by
  have outwards := related.outwards
  rw [related.scopes_split split inside] at outwards
  obtain ⟨_, _, across⟩ := List.pairwise_append.mp outwards
  refine List.filter_eq_nil_iff.mpr fun other member around => ?_
  have present : other ∈ stacked.scopes := by simp [split, member]
  have shorter := related.prefix_owner closed present (by simpa using around)
  have listed : other ∈ nearer.filter fun other => other.owner <+: stacked.inside :=
    List.mem_filter.mpr ⟨member, by simpa using shorter.trans inside⟩
  have longer := across other listed scope List.mem_cons_self
  have bound := shorter.length_le
  omega

/-- Of the scopes further out, those around a declaration are those around its reference. -/
theorem filter_further (related : stacked.Matches lexical) (split : stacked.scopes = nearer ++ scope :: further)
    (inside : scope.owner <+: stacked.inside) (closed : stacked.isOpen (scope.owner ++ [index]) = false) :
    further.filter (fun other => other.owner <+: scope.owner ++ [index]) =
      further.filter fun other => other.owner <+: stacked.inside := by
  have outwards := related.outwards
  rw [related.scopes_split split inside] at outwards
  obtain ⟨_, fromScope, _⟩ := List.pairwise_append.mp outwards
  refine List.filter_congr fun other member => decide_eq_decide.mpr ?_
  constructor
  · intro around
    exact (related.prefix_owner closed (by simp [split, member]) around).trans inside
  · intro around
    have listed : other ∈ further.filter fun other => other.owner <+: stacked.inside :=
      List.mem_filter.mpr ⟨member, by simpa using around⟩
    have shorter := (List.pairwise_cons.mp fromScope).1 other listed
    exact (List.prefix_of_prefix_length_le around inside (Nat.le_of_lt shorter)).trans (List.prefix_append _ _)

end

/-- Entering a declaration that stands textually around its reference keeps the two
runs matched. -/
theorem enterBy (related : stacked.Matches lexical) {name : String} {position : Position}
    {declaration : Declaration} (found : stacked.find? name = some (position, declaration))
    (around : position.dropLast <+: stacked.inside) (closed : stacked.isOpen position = false) :
    (stacked.enterBy .stacked name position declaration).Matches
      (lexical.enterBy .lexical name position declaration) := by
  obtain ⟨nearer, scope, further, split, here, missing⟩ := Surroundings.find?_split found
  obtain ⟨index, rfl⟩ := Scope.owner_of_find? here
  have inside : scope.owner <+: stacked.inside := by simpa using around
  have scopes := related.scopes_split split inside
  have kept : lexical.scopes.dropWhile (fun other => (other.find? name).isNone) =
      scope :: further.filter fun other => other.owner <+: stacked.inside := by
    rw [scopes, List.dropWhile_append_of_pos, List.dropWhile_cons_of_neg (by simp [here])]
    intro other member
    simp [missing other (List.mem_filter.mp member).1]
  have outwards := related.outwards
  rw [scopes] at outwards
  obtain ⟨_, fromScope, _⟩ := List.pairwise_append.mp outwards
  constructor
  case document => exact related.document
  case opened => simp [Surroundings.enterBy, related.opened]
  case scopes =>
    have nowInside : (stacked.enterBy .stacked name (scope.owner ++ [index]) declaration).inside =
        scope.owner ++ [index] := rfl
    rw [nowInside]
    simp [Surroundings.enterBy, Scoping.stacked, Scoping.lexical, kept, split,
      related.filter_nearer split inside closed, related.filter_further split inside closed]
  case outwards =>
    simp only [Surroundings.enterBy, Scoping.lexical, kept]
    refine List.pairwise_cons.mpr ⟨fun other member => ?_, fromScope⟩
    rcases List.mem_cons.mp member with same | member
    · simp [same]
    · have shorter := (List.pairwise_cons.mp fromScope).1 other member
      simp only [List.length_append, List.length_cons, List.length_nil]
      omega
  case owners =>
    intro other member
    rcases List.mem_cons.mp member with same | member
    · exact .inr (by simp [Surroundings.enterBy, same])
    · rcases related.owners other member with root | opened
      · exact .inl root
      · exact .inr (List.mem_cons_of_mem _ opened)

end Surroundings.Matches

/-! ### The two runs side by side -/

/-- Two lists that are alike up to a first place where they differ. -/
def PartWays (first second : List Resolution) : Prop :=
  ∃ shared one other restOfOne restOfOther, first = shared ++ one :: restOfOne ∧
    second = shared ++ other :: restOfOther ∧ one ≠ other

namespace PartWays
variable {first second : List Resolution}

theorem ne (part : PartWays first second) : first ≠ second := by
  obtain ⟨shared, one, other, _, _, rfl, rfl, different⟩ := part
  intro same
  exact different (List.cons.inj (List.append_cancel_left same)).1

theorem append (part : PartWays first second) (later others : List Resolution) :
    PartWays (first ++ later) (second ++ others) := by
  obtain ⟨shared, one, other, restOfOne, restOfOther, rfl, rfl, different⟩ := part
  exact ⟨shared, one, other, restOfOne ++ later, restOfOther ++ others, by simp, by simp, different⟩

theorem prepend (part : PartWays first second) (earlier : List Resolution) :
    PartWays (earlier ++ first) (earlier ++ second) := by
  obtain ⟨shared, one, other, restOfOne, restOfOther, rfl, rfl, different⟩ := part
  exact ⟨earlier ++ shared, one, other, restOfOne, restOfOther, by simp, by simp, different⟩

end PartWays

/-- The references that two runs meet and the outcomes that they have: both the same,
all references being lexical, or the runs part, and then one of the references is
not. -/
inductive SideBySide {α : Type} (lookups others : List Lookup) (outcome other : Except CompileError α) :
    Prop where
  | together (resolutions : lookups.map Lookup.resolution = others.map Lookup.resolution)
      (same : outcome = other) (lexical : ∀ lookup ∈ lookups, lookup.IsLexical)
  | apart (part : PartWays (lookups.map Lookup.resolution) (others.map Lookup.resolution))
      (captured : ∃ lookup ∈ lookups, ¬ lookup.IsLexical)

namespace SideBySide
variable {α β : Type} {lookups others : List Lookup} {outcome other : Except CompileError α}

theorem silent (same : outcome = other) : SideBySide [] [] outcome other :=
  .together rfl same (by simp)

/-- One step after another. -/
theorem bind {next nextOther : α → Except CompileError β} {later laterOthers : α → List Lookup}
    (step : SideBySide lookups others outcome other)
    (steps : ∀ value, SideBySide (later value) (laterOthers value) (next value) (nextOther value)) :
    SideBySide (lookups ++ following outcome later) (others ++ following other laterOthers)
      (outcome >>= next) (other >>= nextOther) := by
  cases step with
  | apart part captured =>
    obtain ⟨lookup, member, foreign⟩ := captured
    refine .apart ?_ ⟨lookup, List.mem_append_left _ member, foreign⟩
    simpa only [List.map_append] using part.append _ _
  | together resolutions same lexical =>
    subst same
    cases outcome with
    | error error => exact .together (by simpa [following] using resolutions) rfl (by simpa [following] using lexical)
    | ok value =>
      cases steps value with
      | together laterResolutions laterSame laterLexical =>
        refine .together ?_ laterSame fun lookup member => ?_
        · simp only [following, List.map_append, resolutions, laterResolutions]
        · rcases List.mem_append.mp member with early | late
          · exact lexical lookup early
          · exact laterLexical lookup late
      | apart part captured =>
        obtain ⟨lookup, member, foreign⟩ := captured
        refine .apart ?_ ⟨lookup, List.mem_append_right _ member, foreign⟩
        simpa only [following, List.map_append, resolutions] using part.prepend _

/-- A step with something silent after it. -/
theorem bind_silent (step : SideBySide lookups others outcome other) (next : α → Except CompileError β) :
    SideBySide lookups others (outcome >>= next) (other >>= next) := by
  cases step with
  | apart part captured => exact .apart part captured
  | together resolutions same lexical => exact .together resolutions (by rw [same]) lexical

/-- A reference that both runs resolve alike, with what it leads to. -/
theorem cons {lookup twin : Lookup} (resolution : lookup.resolution = twin.resolution)
    (lexical : lookup.IsLexical) (rest : SideBySide lookups others outcome other) :
    SideBySide (lookup :: lookups) (twin :: others) outcome other := by
  cases rest with
  | together resolutions same allLexical =>
    refine .together (by simp only [List.map_cons, resolution, resolutions]) same fun each member => ?_
    rcases List.mem_cons.mp member with rfl | later
    · exact lexical
    · exact allLexical each later
  | apart part captured =>
    obtain ⟨each, member, foreign⟩ := captured
    refine .apart ?_ ⟨each, List.mem_cons_of_mem _ member, foreign⟩
    simpa only [List.map_cons, resolution, List.singleton_append] using part.prepend [twin.resolution]

end SideBySide

section
variable {promoter otherPromoter : Promoter} {tracer otherTracer : Tracer}

mutual
/-- Runs that go side by side through every reference do so through every field. -/
theorem Field.sideBySide
    (step : ∀ schema path name made, SideBySide (tracer schema path name made)
      (otherTracer schema path name made) (promoter schema path name made)
      (otherPromoter schema path name made)) (schema above : String) :
    (field : Field) → (made : Promotions) →
      SideBySide (field.lookups promoter tracer schema above made)
        (field.lookups otherPromoter otherTracer schema above made)
        (field.resolve promoter schema above made) (field.resolve otherPromoter schema above made)
  | ⟨name, token, children⟩, made => by
    simp only [Field.lookups, Field.resolve]
    cases Kind.ofToken token with
    | submodel target => exact (step _ _ _ _).bind_silent _
    | map => exact (sideBySideAll step schema _ children made).bind_silent _
    | _ => exact .silent rfl
theorem Field.sideBySideAll
    (step : ∀ schema path name made, SideBySide (tracer schema path name made)
      (otherTracer schema path name made) (promoter schema path name made)
      (otherPromoter schema path name made)) (schema above : String) :
    (fields : List Field) → (made : Promotions) →
      SideBySide (lookupsAll promoter tracer schema above fields made)
        (lookupsAll otherPromoter otherTracer schema above fields made)
        (resolveAll promoter schema above fields made)
        (resolveAll otherPromoter schema above fields made)
  | [], made => .silent rfl
  | field :: rest, made => by
    simp only [Field.lookupsAll, Field.resolveAll]
    refine (sideBySide step schema above field made).bind fun (_, made) => ?_
    exact (sideBySideAll step schema above rest made).bind_silent _
end

end

/-- In surroundings that match, stacked and lexical promotion go side by side. -/
theorem promoteBy_sideBySide (budget : Nat) {stacked lexical : Surroundings}
    (related : stacked.Matches lexical) (schema path name : String) (made : Promotions) :
    SideBySide (lookupsBy .stacked budget stacked schema path name made)
      (lookupsBy .lexical budget lexical schema path name made)
      (promoteBy .stacked budget stacked schema path name made)
      (promoteBy .lexical budget lexical schema path name made) := by
  rw [lookupsBy.eq_def, lookupsBy.eq_def .lexical, promoteBy.eq_def, promoteBy.eq_def .lexical]
  simp only
  by_cases around : Lookup.IsLexical ⟨stacked, schema, path, name⟩
  case neg =>
    obtain ⟨position, found, captured⟩ : ∃ position, (stacked.find? name).map Prod.fst = some position ∧
        ¬ position.dropLast <+: stacked.inside := by
      simpa [Lookup.IsLexical, Lookup.found?] using around
    obtain ⟨⟨_, declaration⟩, here, rfl⟩ := Option.map_eq_some_iff.mp found
    refine .apart ⟨[], _, _, _, _, rfl, rfl, fun same => ?_⟩ ⟨_, List.mem_cons_self, around⟩
    have foundSame : (stacked.find? name).map Prod.fst = (lexical.find? name).map Prod.fst :=
      congrArg Resolution.found same
    exact related.find?_ne here captured (foundSame.symm.trans found)
  case pos =>
    have foundSame := related.find?_eq around
    have resolution : Lookup.resolution ⟨stacked, schema, path, name⟩ =
        Lookup.resolution ⟨lexical, schema, path, name⟩ := by
      simp only [Lookup.resolution, Lookup.found?, foundSame]
    refine .cons resolution around ?_
    rw [foundSame]
    cases found : stacked.find? name with
    | none => exact .silent rfl
    | some entry =>
      obtain ⟨position, declaration⟩ := entry
      simp only [related.isOpen, related.cycle]
      by_cases closed : stacked.isOpen position = true
      · simp only [closed, if_true]
        exact .silent rfl
      · simp only [closed]
        cases made.origins.lookup (derivedName schema name) with
        | some origin => exact .silent rfl
        | none =>
          cases budget with
          | zero => exact .silent rfl
          | succ budget =>
            have inside := related.enterBy found (around position (by simp [Lookup.found?, found]))
              (by simpa using closed)
            exact (Field.sideBySideAll (promoteBy_sideBySide budget inside) _ _ _ _).bind_silent _

/-- Expansion is lexical exactly if no reference that it meets finds a declaration in a
list that is not textually around it. -/
theorem Declaration.isLexicallyScoped_iff (definition : Declaration) :
    definition.IsLexicallyScoped ↔ ∀ lookup ∈ definition.lookups .stacked, lookup.IsLexical := by
  have runs := Field.sideBySideAll
    (promoteBy_sideBySide definition.countWithin (.root definition)) definition.name "" definition.fields {}
  constructor
  · intro alike
    cases runs with
    | together _ _ lexical => exact lexical
    | apart part _ => exact absurd alike.1 part.ne
  · intro lexical
    cases runs with
    | together resolutions same _ =>
      refine ⟨resolutions, ?_⟩
      rw [← definition.expandBy_stacked, expandLexically, expandBy, expandBy, same]
    | apart _ captured =>
      obtain ⟨lookup, member, foreign⟩ := captured
      exact absurd (lexical lookup member) foreign

/-- The names of the fields that a schema has in an expansion. -/
def fieldNames (outcome : Except CompileError Expansion) (schema : String) : Option (List String) :=
  (outcome.toOption.bind (·.find? schema)).map (·.map Field.name)

/-- A definition in which `a` declares a submodel `x` of its own and refers to its
sibling `b`, which refers to the `x` beside it. -/
def capturing : Declaration :=
  ⟨"doc", [⟨"f", "submodel.a", []⟩],
    [⟨"a", [⟨"g", "submodel.b", []⟩], [⟨"x", [⟨"inner", "text", []⟩], []⟩]⟩,
      ⟨"b", [⟨"h", "submodel.x", []⟩], []⟩, ⟨"x", [⟨"outer", "text", []⟩], []⟩]⟩

/-- The reference in `b` goes to the `x` of `a`, which merely refers to `b`. -/
theorem capturing_expand :
    capturing.validate = .ok () ∧
      fieldNames capturing.expand "doc_a_b_x" = some ["inner"] ∧
      fieldNames capturing.expandLexically "doc_a_b_x" = some ["outer"] := by
  decide +kernel

end Dossier
