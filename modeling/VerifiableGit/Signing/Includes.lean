import VerifiableGit.Workflow.Lines

-- Signing switched on and off for one repository by a single `include.path`
-- line of its own git config (did-git-sign, enable.rs).
namespace VerifiableGit.Signing
open Qualified (Str text backslash stripPrefix)
open Workflow (newline fromUtf8 linesOf trim)

-- A path as `std::path` takes it apart.
inductive Component where
  | rootDir
  | curDir
  | parentDir
  | normal (name : Str)
deriving DecidableEq

def components (path : Str) : List Component :=
  let parts := path.splitOn '/'
  (if path.head? = some '/' then [.rootDir] else if parts.head? = some ['.'] then [.curDir] else []) ++
    (parts.filter fun part => part ≠ [] && part ≠ ['.']).map fun part =>
      if part = ['.','.'] then .parentDir else .normal part

def join (base path : Str) : Str :=
  if path.head? = some '/' then path
  else if base = [] ∨ base.getLast? = some '/' then base ++ path
  else base ++ '/' :: path

-- Where the user's directories are, as far as the machine knows them.
structure Machine where
  homeDir : Option Str
  configDir : Option Str

def Machine.dataDir (m : Machine) : Option Str := m.configDir.map fun dir => join dir (text "did-git-sign")
def Machine.hooksDir (m : Machine) : Option Str := m.dataDir.map fun dir => join dir (text "hooks")
def Machine.includeDir (m : Machine) : Option Str := m.dataDir.map fun dir => join dir (text "gitconfig")

def expandHome (m : Machine) (value : Str) : Str :=
  match stripPrefix (text "~/") value,m.homeDir with
  | some rest,some home => join home rest
  | _,_ => value

def isOurInclude (m : Machine) (value : Str) : Bool :=
  match m.includeDir with
  | none => false
  | some dir => (components dir).isPrefixOf (components (expandHome m (trim value)))

-- A POSIX extended regular expression, as far as anchors and single characters go.
inductive Atom where
  | start
  | stop
  | char (c : Char)
deriving DecidableEq

def specials : Str := text "\\^$.|?*+()[]\x7b\x7d"

-- The atoms of a pattern, if it uses nothing else.
def atoms : Str → Option (List Atom)
  | [] => some []
  | c :: rest =>
    if c = backslash then
      match rest with
      | [] => none
      | d :: rest => (atoms rest).map (Atom.char d :: ·)
    else if c = '^' then (atoms rest).map (Atom.start :: ·)
    else if c = '$' then (atoms rest).map (Atom.stop :: ·)
    else if c ∈ specials then none
    else (atoms rest).map (Atom.char c :: ·)

def matchHere : List Atom → Bool → Str → Bool
  | [],_,_ => true
  | .start :: more,first,s => first && matchHere more first s
  | .stop :: more,first,s => s.isEmpty && matchHere more first s
  | .char _ :: _,_,[] => false
  | .char c :: more,_,d :: rest => c = d && matchHere more false rest

-- A match may begin anywhere in the value.
def search (pattern : List Atom) : Bool → Str → Bool
  | first,[] => matchHere pattern first []
  | first,c :: rest => matchHere pattern first (c :: rest) || search pattern false rest

def matched (pattern value : Str) : Bool := (atoms pattern).any fun p => search p true value

def regexEscape (s : Str) : Str := s.flatMap fun c => if c ∈ specials then [backslash,c] else [c]

def valuePattern (value : Str) : Str := '^' :: regexEscape (trim value) ++ ['$']

inductive Scope where
  | local_
  | global
deriving DecidableEq

def Scope.flag : Scope → Str
  | .local_ => text "--local"
  | .global => text "--global"

-- The commands one run can give git, each at most once.
inductive Call where
  | revParse
  | hooksPath (scope_ : Scope)
  | getAll
  | unsetAll (nth : Nat)
  | add
deriving DecidableEq

structure Repo where
  -- Inside its work tree, inside its `.git`, or no repository at all.
  workTree : Option Bool
  hooksPath : Scope → Option Str
  -- The local values of `include.path`.
  includes : List Str

-- A git command that fails leaves the config as it was. `git` ends with the
-- arguments of the command that failed.
inductive Error where
  | bail (said : Str)
  | notUtf8 (path : List UInt8)
  | git (arguments : List Str)
deriving DecidableEq

abbrev Result := Except Error

-- What a command printed, trimmed, unless it failed or printed nothing.
def gitOut (printed : Option Str) : Option Str := (printed.map trim).filter fun v => !v.isEmpty

def revParse (fails : Call → Bool) (repo : Repo) : Option Str :=
  if fails .revParse then none
  else repo.workTree.map fun inside => (if inside then text "true" else text "false") ++ [newline]

def getHooksPath (fails : Call → Bool) (repo : Repo) (scope_ : Scope) : Option Str :=
  if fails (.hooksPath scope_) then none else (repo.hooksPath scope_).map (· ++ [newline])

def getAll (fails : Call → Bool) (values : List Str) : Option Str :=
  if fails .getAll ∨ values = [] then none else some (values.flatMap (· ++ [newline]))

def unsetAll (fails : Call → Bool) (nth : Nat) (pattern : Str) (values : List Str) : Option (List Str) :=
  if fails (.unsetAll nth) ∨ ¬ values.any (matched pattern) then none
  else some (values.filter fun v => !matched pattern v)

def insideWorkTree (fails : Call → Bool) (repo : Repo) : Bool := gitOut (revParse fails repo) = some (text "true")

def requireWorkTree (fails : Call → Bool) (repo : Repo) : Result Unit :=
  if insideWorkTree fails repo then .ok ()
  else .error (.bail (text "not inside a git repository; run this in one, or use --dir"))

def foreignHooksPath (scope_ : Scope) (existing : Str) : Error :=
  .bail (scope_.flag ++ text " core.hooksPath is set to '" ++ existing ++ text "', which is not did-git-sign's. " ++
    text "Enabling would replace it and its hooks would stop running. Unset it, or add the " ++
    text "Signed-by-DID trailer logic to that directory's commit-msg hook by hand.")

def refuseForeignHooksPath (m : Machine) (fails : Call → Bool) (repo : Repo) (scope_ : Scope) : Result Unit :=
  match m.hooksDir with
  | none => .error (.bail (text "could not determine config directory"))
  | some ours =>
    match gitOut (getHooksPath fails repo scope_) with
    | none => .ok ()
    | some existing =>
      if components (expandHome m (trim existing)) = components ours then .ok ()
      else .error (foreignHooksPath scope_ existing)

def unsetArguments (pattern : Str) : List Str :=
  [text "config",text "--local",text "--unset-all",text "include.path",pattern]

def addArguments (value : Str) : List Str := [text "config",text "--local",text "--add",text "include.path",value]

-- The lines as they were read, removed from the values as they are by then.
def unsetEach (fails : Call → Bool) : Nat → List Str → List Str → Result Unit × List Str
  | _,[],values => (.ok (),values)
  | nth,line :: lines,values =>
    match unsetAll fails nth (valuePattern line) values with
    | none => (.error (.git (unsetArguments (valuePattern line))),values)
    | some left => unsetEach fails (nth+1) lines left

def removeRepoIncludes (m : Machine) (fails : Call → Bool) (values : List Str) : Result Bool × List Str :=
  match gitOut (getAll fails values) with
  | none => (.ok false,values)
  | some all =>
    let ours := (linesOf all).filter (isOurInclude m)
    match unsetEach fails 0 ours values with
    | (.error e,left) => (.error e,left)
    | (.ok (),left) => (.ok (!ours.isEmpty),left)

-- What `enable_repo` asks before it changes anything.
def enableChecks (m : Machine) (fails : Call → Bool) (repo : Repo) : Result Unit := do
  requireWorkTree fails repo
  refuseForeignHooksPath m fails repo .local_
  refuseForeignHooksPath m fails repo .global

def addInclude (fails : Call → Bool) (include_ : List UInt8) (values : List Str) : Result Unit × List Str :=
  match fromUtf8 include_ with
  | none => (.error (.notUtf8 include_),values)
  | some value => if fails .add then (.error (.git (addArguments value)),values) else (.ok (),values ++ [value])

def enableRepo (m : Machine) (fails : Call → Bool) (include_ : List UInt8) (repo : Repo) : Result Unit × List Str :=
  match enableChecks m fails repo with
  | .error e => (.error e,repo.includes)
  | .ok () =>
    match removeRepoIncludes m fails repo.includes with
    | (.error e,left) => (.error e,left)
    | (.ok _,left) => addInclude fails include_ left

def disableRepo (m : Machine) (fails : Call → Bool) (repo : Repo) : Result Bool × List Str :=
  match requireWorkTree fails repo with
  | .error e => (.error e,repo.includes)
  | .ok () => removeRepoIncludes m fails repo.includes

theorem atoms_plain (plain : c ∉ specials) (more : Str) : atoms (c :: more) = (atoms more).map (Atom.char c :: ·) := by
  have other : c ≠ backslash ∧ c ≠ '^' ∧ c ≠ '$' := by
    refine ⟨?_,?_,?_⟩ <;> intro same <;> subst same <;> exact plain (by decide)
  cases more <;> simp only [atoms,if_neg other.1,if_neg other.2.1,if_neg other.2.2,if_neg plain]

theorem atoms_start (more : Str) : atoms ('^' :: more) = (atoms more).map (Atom.start :: ·) := by
  have other : ¬ '^' = backslash := by decide
  cases more <;> simp only [atoms,if_neg other,if_true]

-- The escaped text is the text and nothing else.
theorem atoms_escaped (s : Str) (more : Str) : atoms (regexEscape s ++ more) = (atoms more).map (s.map Atom.char ++ ·) := by
  induction s with
  | nil => simp [regexEscape]
  | cons c s ih =>
    have grown : regexEscape (c :: s) ++ more = (if c ∈ specials then [backslash,c] else [c]) ++ (regexEscape s ++ more) := by
      simp [regexEscape]
    rw [grown]
    by_cases special : c ∈ specials
    · rw [if_pos special]
      simp only [List.cons_append,List.nil_append,atoms,if_pos,ih,Option.map_map]
      rfl
    · rw [if_neg special,List.singleton_append,atoms_plain special,ih,Option.map_map]
      rfl

theorem atoms_value (value : Str) : atoms (valuePattern value) = some (.start :: (trim value).map Atom.char ++ [.stop]) := by
  have last : atoms ['$'] = some [.stop] := by decide
  rw [valuePattern,List.cons_append,atoms_start,atoms_escaped,last]
  rfl

theorem matchHere_word (word value : Str) (first : Bool) :
    matchHere (word.map Atom.char ++ [.stop]) first value = (word = value : Bool) := by
  induction word generalizing value first with
  | nil => cases value <;> simp [matchHere]
  | cons c word ih =>
    cases value with
    | nil => simp [matchHere]
    | cons d value => simp [matchHere,ih]

theorem search_later (more : List Atom) (value : Str) : search (.start :: more) false value = false := by
  induction value with
  | nil => simp [search,matchHere]
  | cons c value ih => simp [search,matchHere,ih]

-- A value is matched by the pattern of a line only if it is the line.
theorem matched_exact (line value : Str) : matched (valuePattern line) value = (value = trim line : Bool) := by
  have here : search (.start :: (trim line).map Atom.char ++ [.stop]) true value = (trim line = value : Bool) := by
    cases value with
    | nil => simp [search,matchHere,matchHere_word]
    | cons c value => simp [search,matchHere,matchHere_word,search_later]
  simp only [matched,atoms_value,Option.any_some,here]
  exact decide_eq_decide.mpr eq_comm

end VerifiableGit.Signing
