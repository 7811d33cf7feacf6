import VerifiableGit.Qualified.Grammar

-- Containment of resources, and the two a run queries (verify-trust, resource.rs).
namespace VerifiableGit.Qualified

inductive ResourceFormat where
  | qualified
deriving DecidableEq

structure CiEnv where
  forgejoServerUrl : Option Str := none
  forgejoRepository : Option Str := none
  githubServerUrl : Option Str := none
  githubRepository : Option Str := none

-- Both, and neither of them empty.
def pair (url repo : Option Str) : Option (Str × Str) := do
  let url ← url.filter (· ≠ [])
  let repo ← repo.filter (· ≠ [])
  pure (url,repo)

def CiEnv.detected (ci : CiEnv) : Option (Str × Str × Str) :=
  ((pair ci.forgejoServerUrl ci.forgejoRepository).map fun found =>
    (text "FORGEJO_SERVER_URL + FORGEJO_REPOSITORY",found)).or
  ((pair ci.githubServerUrl ci.githubRepository).map fun found =>
    (text "GITHUB_SERVER_URL + GITHUB_REPOSITORY",found))

def afterLast (mark : Char) (s : Str) : Str := s.rtakeWhile (· ≠ mark)

def forgeHostOf (url : Str) : Option Str :=
  let rest := ((splitOnce (text "://") url).map (·.2)).getD url
  let authority := rest.takeWhile fun c => c ≠ '/' && c ≠ '?' && c ≠ '#'
  let hostPort := afterLast '@' authority
  let host := hostPort.takeWhile (· ≠ ':')
  if host = [] then none else some (lower host)

def CiEnv.forgeHost (ci : CiEnv) : Option Str :=
  [ci.forgejoServerUrl,ci.githubServerUrl].findSome? fun url => url.bind forgeHostOf

def normalizeQualified (what value : Str) (ci : CiEnv) : Except Str Str :=
  match normalizeResource value with
  | .ok canonical => .ok canonical
  | .error e =>
    if e.kind = .missingForgeHost then
      let bare := lower (trimMatches '/' value)
      let fix := match ci.forgeHost with
        | some detected => text "did you mean " ++ quoted (detected ++ '/' :: bare) ++ text "?"
        | none => text "prefix the forge host, e.g. " ++ quoted (text "github.com/" ++ bare)
      .error (what ++ text " " ++ quoted value ++ text (" is not forge-qualified (--resource-format qualified expects " ++
        "`<forge-host>/<owner>[/<repo>]`); ") ++ fix)
    else .error (e.describe what)

def CiEnv.qualifiedResource (ci : CiEnv) : Except Str (Option Str) :=
  match ci.detected with
  | none => .ok none
  | some (source,url,repo) =>
    match forgeHostOf url with
    | none => .error (text "cannot read a forge host from " ++ source ++ text " (" ++ quoted url ++ text ")")
    | some host =>
      (normalizeQualified (text "resource derived from " ++ source) (host ++ '/' :: repo) ci).map some

def namespaceOf (resource : Str) : Str := ['/'].intercalate ((resource.splitOn '/').take 2)

def resourceRequired : Str :=
  text ("--resource is required: no CI environment detected to derive it from (FORGEJO_SERVER_URL + " ++
    "FORGEJO_REPOSITORY, or GITHUB_SERVER_URL + GITHUB_REPOSITORY); pass e.g. `--resource github.com/acme/widgets`")

def primaryResource (resource : Option Str) (ci : CiEnv) : Except Str Str :=
  match resource with
  | some value => normalizeQualified (text "--resource") value ci
  | none =>
    match ci.qualifiedResource with
    | .error e => .error e
    | .ok none => .error resourceRequired
    | .ok (some derived) => .ok derived

def fallbackResource (fallback : Option Str) (ci : CiEnv) : Except Str (Option Str) :=
  match fallback with
  | some value => (normalizeQualified (text "--fallback-resource") value ci).map some
  | none => .ok none

def selectResources (format : ResourceFormat) (resource fallbackValue : Option Str) (ci : CiEnv) :
    Except Str (Str × Option Str) :=
  match format with
  | .qualified => do
    let resource ← primaryResource resource ci
    let fallback ← fallbackResource fallbackValue ci
    match fallback.filter fun fallback => !resourceContains fallback resource with
    | some fallback =>
      .error (text "--fallback-resource " ++ quoted fallback ++ text " does not contain --resource " ++
        quoted resource ++ text ": the fallback must be the namespace the repository sits in (e.g. " ++
        quoted (namespaceOf resource) ++ text "), never another owner's or another forge's")
    | none => .ok (resource,fallback)

/-! Containment -/

def segments (s : Str) : List Str := s.splitOn '/'

theorem segments_inj {a b : Str} (same : segments a = segments b) : a = b := by
  have left : ['/'].intercalate (segments a) = a := List.intercalate_splitOn '/'
  have right : ['/'].intercalate (segments b) = b := List.intercalate_splitOn '/'
  rw [← left,same,right]

theorem contains_cases (scope_ resource : Str) : resourceContains scope_ resource = true ↔
    resource = scope_ ∨ ∃ rest, resource = scope_ ++ '/' :: rest := by
  unfold resourceContains stripPrefix
  constructor
  · intro inside
    split at inside
    · rename_i rest cut
      split at cut
      · rename_i start
        cases cut
        obtain ⟨tail,same⟩ := List.isPrefixOf_iff_prefix.mp start
        rw [← same,List.drop_left,Bool.or_eq_true,List.isEmpty_iff,decide_eq_true_eq] at inside
        rcases inside with empty | slash
        · exact .inl (by rw [← same,empty,List.append_nil])
        · obtain ⟨rest,rfl⟩ := List.head?_eq_some_iff.mp slash
          exact .inr ⟨rest,same.symm⟩
      · cases cut
    · cases inside
  · rintro (rfl | ⟨rest,rfl⟩)
    · rw [if_pos (List.isPrefixOf_iff_prefix.mpr (List.prefix_refl resource)),List.drop_length]
      rfl
    · rw [if_pos (List.isPrefixOf_iff_prefix.mpr (List.prefix_append scope_ _)),List.drop_left]
      rfl

theorem intercalate_append {left right : List Str} (some_ : left ≠ []) (more : right ≠ []) :
    ['/'].intercalate (left ++ right) = ['/'].intercalate left ++ '/' :: ['/'].intercalate right := by
  induction left with
  | nil => exact absurd rfl some_
  | cons head rest ih =>
    cases rest with
    | nil => rw [List.singleton_append,List.intercalate_cons_of_ne_nil more,List.intercalate_singleton]; simp
    | cons next rest =>
      have whole : next :: rest ++ right ≠ [] := List.cons_ne_nil _ _
      rw [List.cons_append,List.intercalate_cons_of_ne_nil whole,ih (List.cons_ne_nil _ _),
        List.intercalate_cons_of_ne_nil (List.cons_ne_nil next rest)]
      simp

-- One contains another where its segments start the other's.
theorem contains_exact (scope_ resource : Str) :
    resourceContains scope_ resource = true ↔ segments scope_ <+: segments resource := by
  rw [contains_cases]
  constructor
  · rintro (rfl | ⟨rest,rfl⟩)
    · exact List.prefix_refl _
    · rw [segments,segments,List.splitOn_append_cons_self]
      exact List.prefix_append _ _
  · rintro ⟨later,same⟩
    rcases later with _ | ⟨next,later⟩
    · exact .inl (segments_inj ((List.append_nil _).symm.trans same)).symm
    · refine .inr ⟨['/'].intercalate (next :: later),?_⟩
      have whole : ['/'].intercalate (segments resource) = resource := List.intercalate_splitOn '/'
      have start : ['/'].intercalate (segments scope_) = scope_ := List.intercalate_splitOn '/'
      have some_ : segments scope_ ≠ [] := List.splitOn_ne_nil '/' scope_
      rw [← whole,← same,intercalate_append some_ (List.cons_ne_nil next later),start]

theorem contains_refl (a : Str) : resourceContains a a = true :=
  (contains_exact a a).mpr (List.prefix_refl _)

theorem contains_trans {a b c : Str} (one : resourceContains a b = true) (two : resourceContains b c = true) :
    resourceContains a c = true :=
  (contains_exact a c).mpr (((contains_exact a b).mp one).trans ((contains_exact b c).mp two))

theorem contains_antisymm {a b : Str} (one : resourceContains a b = true) (two : resourceContains b a = true) : a = b := by
  have left := (contains_exact a b).mp one
  have right := (contains_exact b a).mp two
  exact segments_inj (left.eq_of_length (Nat.le_antisymm left.length_le right.length_le))

def hostOf (s : Str) : Str := (segments s).headD []

theorem contains_host {a b : Str} (inside : resourceContains a b = true) : hostOf a = hostOf b := by
  obtain ⟨later,same⟩ := (contains_exact a b).mp inside
  obtain ⟨host,path,cut⟩ := List.exists_cons_of_ne_nil (List.splitOn_ne_nil '/' a)
  have first : segments a = host :: path := cut
  rw [hostOf,hostOf,← same,first]
  rfl

-- A longer name is not inside a shorter one.
theorem contains_whole {a more : Str} (some_ : more ≠ []) (word : more.head? ≠ some '/') :
    resourceContains a (a ++ more) = false := by
  refine Bool.eq_false_iff.mpr fun inside => ?_
  rcases (contains_cases a (a ++ more)).mp inside with same | ⟨rest,same⟩
  · exact some_ (List.append_right_eq_self.mp same)
  · rw [List.append_cancel_left same] at word
    exact word rfl

theorem qualified_normal {what value canonical : Str} {ci : CiEnv}
    (ok : normalizeQualified what value ci = .ok canonical) : Grammar maxPathSegments canonical := by
  unfold normalizeQualified at ok
  cases done : normalizeResource value with
  | ok found =>
    rw [done] at ok
    cases ok
    obtain ⟨same,grammar⟩ := (normalize_exact value maxPathSegments canonical).mp done
    exact same ▸ grammar
  | error e =>
    rw [done] at ok
    dsimp only at ok
    split at ok
    · cases ok
    · cases ok

theorem map_some {r : Except Str Str} (ok : r.map some = .ok (some canonical)) : r = .ok canonical := by
  cases r with
  | error e => cases ok
  | ok found => cases ok; rfl

theorem primary_normal {resource : Option Str} {ci : CiEnv} (ok : primaryResource resource ci = .ok primary) :
    Grammar maxPathSegments primary := by
  unfold primaryResource at ok
  cases resource with
  | some value => exact qualified_normal ok
  | none =>
    cases derived : ci.qualifiedResource with
    | error e => rw [derived] at ok; cases ok
    | ok found =>
      rw [derived] at ok
      cases found with
      | none => cases ok
      | some found =>
        cases ok
        unfold CiEnv.qualifiedResource at derived
        split at derived
        · cases derived
        · split at derived
          · cases derived
          · exact qualified_normal (map_some derived)

theorem fallback_normal {value : Option Str} {ci : CiEnv} (ok : fallbackResource value ci = .ok (some found)) :
    Grammar maxPathSegments found := by
  cases value with
  | none => cases ok
  | some value => exact qualified_normal (map_some ok)

theorem select_contains {format : ResourceFormat} {resource value : Option Str} {ci : CiEnv}
    (ok : selectResources format resource value ci = .ok (primary,some found)) :
    resourceContains found primary = true ∧ Grammar maxPathSegments found ∧ Grammar maxPathSegments primary := by
  cases format with
  | qualified =>
    simp only [selectResources] at ok
    cases first : primaryResource resource ci with
    | error e => rw [first] at ok; cases ok
    | ok named =>
      cases second : fallbackResource value ci with
      | error e => rw [first,second] at ok; cases ok
      | ok around =>
        rw [first,second] at ok
        dsimp only [bind,Except.bind] at ok
        cases outside : around.filter fun fallback => !resourceContains fallback named with
        | some fallback => rw [outside] at ok; cases ok
        | none =>
          rw [outside] at ok
          cases ok
          refine ⟨?_,fallback_normal second,primary_normal first⟩
          simpa using outside

-- What a resource is, and what holds of the containment of two.
structure ResourceLaws : Prop where
  accepts : ∀ raw depth c, normalizeResourceWithDepth raw depth = .ok c ↔ c = lower raw ∧ Grammar depth (lower raw)
  again : ∀ raw depth c, normalizeResourceWithDepth raw depth = .ok c → normalizeResourceWithDepth c depth = .ok c
  segmentwise : ∀ a b, resourceContains a b = true ↔ segments a <+: segments b
  refl : ∀ a, resourceContains a a = true
  trans : ∀ a b c, resourceContains a b = true → resourceContains b c = true → resourceContains a c = true
  antisymm : ∀ a b, resourceContains a b = true → resourceContains b a = true → a = b
  host : ∀ a b, resourceContains a b = true → hostOf a = hostOf b
  whole : ∀ a more, more ≠ [] → more.head? ≠ some '/' → resourceContains a (a ++ more) = false
  selected : ∀ format resource fallback ci primary found,
    selectResources format resource fallback ci = .ok (primary,some found) → resourceContains found primary = true ∧
      Grammar maxPathSegments found ∧ Grammar maxPathSegments primary

theorem resource_laws : ResourceLaws where
  accepts := normalize_exact
  again := fun raw depth c ok => by
    obtain ⟨same,grammar⟩ := (normalize_exact raw depth c).mp ok
    exact same ▸ normalize_again grammar
  segmentwise := contains_exact
  refl := contains_refl
  trans := fun _ _ _ => contains_trans
  antisymm := fun _ _ => contains_antisymm
  host := fun _ _ => contains_host
  whole := fun _ _ => contains_whole
  selected := fun _ _ _ _ _ _ => select_contains

example : normalizeResourceWithDepth (text "GitHub.com/Acme/Widgets") 2 = .ok (text "github.com/acme/widgets") := by
  decide

example : resourceContains (text "github.com/acme/web") (text "github.com/acme/web-internal") = false := by decide

end VerifiableGit.Qualified
