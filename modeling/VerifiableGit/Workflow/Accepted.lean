import VerifiableGit.Workflow.Inert

-- What the plans accept into a workflow, and that nothing in it is foreign to the
-- template but for an expression in a DID on Forgejo.
namespace VerifiableGit.Workflow
open Qualified (Str text byteLength contains splitOnce stripPrefix splitOnce_parts contains_absent isControl isWhitespace backslash trimEndMatches)
open Library.Occurrences

theorem contains_exact {mark : Str} (some_ : mark ≠ []) (s : Str) : contains mark s = true ↔ mark <:+: s := by
  constructor
  · intro found
    obtain ⟨⟨before,after⟩,cut⟩ := Option.isSome_iff_exists.mp found
    exact ⟨before,after,(splitOnce_parts cut).symm⟩
  · intro inside
    induction s with
    | nil => exact absurd (List.infix_nil.mp inside) some_
    | cons c rest ih =>
      unfold contains splitOnce
      split
      · rfl
      · rename_i other
        rcases List.infix_cons_iff.mp inside with here | later
        · exact absurd (List.isPrefixOf_iff_prefix.mpr here) other
        · rw [Option.isSome_map]
          exact ih later

theorem unmarked_zero {s : Str} (never : contains expressionMark s = false) : occurrences expressionMark s = 0 :=
  (occurrences_zero mark_some s).mpr fun inside =>
    Bool.false_ne_true (never.symm.trans ((contains_exact mark_some s).mpr inside))

-- Values between single quotes

def doubled (s : Str) : Str := s.flatMap fun c => if c = quote then [quote,quote] else [c]

theorem unquoted_doubled (s : Str) : unquoted (doubled s ++ [quote]) = some s := by
  induction s with
  | nil => rfl
  | cons c rest ih =>
    by_cases own : c = quote
    · have shape : doubled (c :: rest) ++ [quote] = quote :: quote :: (doubled rest ++ [quote]) := by
        simp [doubled,own]
      rw [shape,own,unquoted,if_pos rfl,if_pos rfl,ih]
      rfl
    · have shape : doubled (c :: rest) ++ [quote] = c :: (doubled rest ++ [quote]) := by
        simp [doubled,own]
      obtain ⟨d,more,tail⟩ := List.exists_cons_of_ne_nil (List.append_ne_nil_of_right_ne_nil (doubled rest) (List.cons_ne_nil quote []))
      rw [tail] at ih
      rw [shape,tail,unquoted,if_neg own,ih]
      rfl

theorem single_sound (before : String) {value : Str} (whole : Unbroken value) : (filled before .single value).Sound := by
  refine ⟨whole,?_⟩
  show (if (yamlSingleQuoted value ++ []).head? = some quote then unquoted (yamlSingleQuoted value ++ []).tail else none) = _
  rw [List.append_nil,List.append_nil]
  exact (if_pos rfl).trans (unquoted_doubled value)

theorem single_foreign (before : String) (value : Str) :
    (filled before .single value).foreign = occurrences expressionMark value := by
  have foreign : Foreign expressionMark fun c => if c = quote then [quote,quote] else [c] := by
    intro c
    beta_reduce
    by_cases own : c = quote
    · rw [if_pos own,own]
      refine .inr ⟨by decide,by decide,fun d member => ?_⟩
      have same : d = quote := by simpa using member
      exact same ▸ by decide
    · exact .inl (if_neg own)
  have left : Apart expressionMark [quote] (doubled value ++ [quote]) := apart_last rfl (by decide)
  have right : Apart expressionMark (doubled value) [quote] := apart_first rfl (by decide)
  have blank : occurrences expressionMark [quote] = 0 := by decide
  show occurrences expressionMark ([quote] ++ (doubled value ++ [quote])) = _
  rw [occurrences_append _ left,occurrences_append _ right,blank,Nat.zero_add]
  exact occurrences_foreign mark_some foreign value

-- Words: values of which every character is a plain one

def isWordChar (c : Char) : Bool := isPathChar c || isHexDigit c || c ∈ text "/@:"

structure Wordy (s : Str) : Prop where
  some_ : s ≠ []
  each : ∀ c ∈ s, isWordChar c = true
  last : s.getLast? ≠ some ':'

theorem wordy_absent {s : Str} (each : ∀ c ∈ s, isWordChar c = true) {c : Char} (other : isWordChar c = false) : c ∉ s :=
  fun member => Bool.false_ne_true (other.symm.trans (each c member))

theorem wordy_unbroken {s : Str} (each : ∀ c ∈ s, isWordChar c = true) : Unbroken s := by
  intro c member
  by_contra broken
  rcases Bool.or_eq_true_iff.mp (Bool.not_eq_false _ ▸ broken) with here | here
  · exact wordy_absent each (by decide) (of_decide_eq_true here ▸ member)
  · exact wordy_absent each (by decide) (of_decide_eq_true here ▸ member)

theorem wordy_sound (before : String) {value : Str} (wordy : Wordy value) : (filled before .plain value).Sound := by
  refine ⟨wordy_unbroken wordy.each,?_⟩
  have colon : contains (text ": ") value = false := by
    rw [contains,contains_absent (by decide : ' ' ∈ text ": ") (wordy_absent wordy.each (by decide))]
    rfl
  have comment : contains (text " #") value = false := by
    rw [contains,contains_absent (by decide : ' ' ∈ text " #") (wordy_absent wordy.each (by decide))]
    rfl
  have free : keyless value = true := by
    simp [keyless,colon,comment,wordy.some_,wordy.last]
  show (if keyless (value ++ []) then some (value ++ []) else none) = _
  rw [List.append_nil,if_pos free]

theorem wordy_foreign (before : String) {value : Str} (each : ∀ c ∈ value, isWordChar c = true) :
    (filled before .plain value).foreign = 0 :=
  occurrences_absent (by decide : '$' ∈ expressionMark) (wordy_absent each (by decide))

theorem label_wordy {most : Nat} {s : Str} (label : isLabel most s = true) : Wordy s := by
  simp only [isLabel,Bool.and_eq_true,Bool.not_eq_true',List.isEmpty_eq_false_iff] at label
  obtain ⟨⟨some_,_⟩,plain⟩ := label
  have path : ∀ c ∈ s, isPathChar c = true := List.all_eq_true.mp plain
  refine ⟨some_,fun c member => ?_,fun last => ?_⟩
  · rw [isWordChar,path c member]
    rfl
  · exact Bool.false_ne_true (Eq.trans (by decide) (path ':' (List.mem_of_getLast? last)))

-- `a@b`, split at the last `@`.
theorem rsplit_parts {mark : Char} {s before after : Str} (cut : rsplitOnce mark s = some (before,after)) :
    s = before ++ mark :: after := by
  obtain ⟨⟨first,second⟩,found,same⟩ := Option.map_eq_some_iff.mp cut
  cases same
  have whole := congrArg List.reverse (splitOnce_parts found)
  simpa using whole

theorem split_mem {path : Str} {c : Char} (member : c ∈ path) : c = '/' ∨ ∃ part ∈ path.splitOn '/', c ∈ part := by
  have whole : ['/'].intercalate (path.splitOn '/') = path := List.intercalate_splitOn '/'
  rw [← whole] at member
  exact Qualified.mem_intercalate member

theorem pinned_wordy {reference : Str} (pinned : isPinnedPath reference = true) : Wordy reference := by
  obtain ⟨⟨path,sha⟩,cut,checked⟩ := (Option.any_eq_true _ _).mp pinned
  simp only [Bool.and_eq_true,decide_eq_true_eq] at checked
  obtain ⟨⟨⟨long,hex⟩,_⟩,parts⟩ := checked
  have whole := rsplit_parts cut
  have digits : ∀ c ∈ sha, isHexDigit c = true := List.all_eq_true.mp hex
  have nonempty : sha ≠ [] := by
    rintro rfl
    cases long
  refine ⟨by rw [whole]; simp,fun c member => ?_,fun last => ?_⟩
  · rw [whole] at member
    rcases List.mem_append.mp member with inside | inside
    · rcases split_mem inside with rfl | ⟨part,here,within⟩
      · rfl
      · have each := List.all_eq_true.mp parts part here
        simp only [Bool.and_eq_true] at each
        rw [isWordChar,List.all_eq_true.mp each.2 c within]
        rfl
    · rcases List.mem_cons.mp inside with rfl | within
      · rfl
      · rw [isWordChar,digits c within,Bool.or_true]
        rfl
  · rw [whole,List.getLast?_append_of_ne_nil _ (List.cons_ne_nil _ _),List.getLast?_cons_of_ne_nil nonempty] at last
    exact Bool.false_ne_true (Eq.trans (by decide) (digits ':' (List.mem_of_getLast? last)))

theorem pin_wordy {reference : Str} (pinned : Forgejo.isFullUrlPin reference = true) : Wordy reference := by
  obtain ⟨⟨host,path⟩,cut,checked⟩ := (Option.any_eq_true _ _).mp pinned
  obtain ⟨rest,started,split⟩ := Option.bind_eq_some_iff.mp cut
  simp only [Bool.and_eq_true,Bool.not_eq_true'] at checked
  obtain ⟨⟨_,named⟩,pinned⟩ := checked
  have wordy := pinned_wordy pinned
  have whole : reference = text "https://" ++ (host ++ ['/'] ++ path) := by
    unfold stripPrefix at started
    split at started
    · rename_i begins
      cases started
      obtain ⟨tail,same⟩ := List.isPrefixOf_iff_prefix.mp begins
      rw [← same,List.drop_left] at split
      rw [← same,splitOnce_parts split]
    · cases started
  have own : ∀ c ∈ text "https://", isWordChar c = true := List.all_eq_true.mp (by decide)
  refine ⟨by rw [whole]; simp,fun c member => ?_,fun last => ?_⟩
  · rw [whole] at member
    rcases List.mem_append.mp member with inside | inside
    · exact own c inside
    rcases List.mem_append.mp inside with inside | inside
    · rcases List.mem_append.mp inside with inside | inside
      · have each := List.all_eq_true.mp named c inside
        simp only [Bool.or_eq_true,decide_eq_true_eq] at each
        rcases each with ((letter | rfl) | rfl) | rfl
        · simp [isWordChar,isPathChar,letter]
        all_goals rfl
      · exact List.mem_singleton.mp inside ▸ rfl
    · exact wordy.each c inside
  · rw [whole,← List.append_assoc,List.getLast?_append_of_ne_nil _ wordy.some_] at last
    exact wordy.last last

theorem did_unbroken {did : Str} (named : isDid did = true) : Unbroken did := by
  simp only [isDid,Bool.and_eq_true] at named
  have graphic : ∀ c ∈ did, isGraphic c = true := fun c member => by
    have each := List.all_eq_true.mp named.2 c member
    simp only [Bool.and_eq_true] at each
    exact each.1.1
  intro c member
  by_contra broken
  rcases Bool.or_eq_true_iff.mp (Bool.not_eq_false _ ▸ broken) with here | here
  · exact Bool.false_ne_true (Eq.trans (by decide) (graphic _ (of_decide_eq_true here ▸ member)))
  · exact Bool.false_ne_true (Eq.trans (by decide) (graphic _ (of_decide_eq_true here ▸ member)))

theorem name_unbroken {most : Nat} {name : Str} (good : badName most name = false) : Unbroken name := by
  simp only [badName,Bool.or_eq_false_iff] at good
  have printed := List.any_eq_false.mp good.1.2
  intro c member
  by_contra broken
  rcases Bool.or_eq_true_iff.mp (Bool.not_eq_false _ ▸ broken) with here | here
  · exact printed _ (of_decide_eq_true here ▸ member) (by decide)
  · exact printed _ (of_decide_eq_true here ▸ member) (by decide)

theorem name_unmarked {most : Nat} {name : Str} (good : badName most name = false) :
    occurrences expressionMark name = 0 := by
  simp only [badName,Bool.or_eq_false_iff] at good
  exact unmarked_zero good.2

-- A runner label, between double quotes
theorem double_scalar {s : Str} (inner : s.all (fun c => c ≠ doubleQuote && c ≠ backslash) = true) :
    scalar .double (doubleQuote :: (s ++ [doubleQuote])) = some s := by
  simp only [scalar,List.head?_cons,List.tail_cons,List.getLast?_concat,List.dropLast_concat]
  exact if_pos ⟨trivial,trivial,inner⟩

theorem runner_line (before : String) {most : Nat} {label : Str} (checked : isLabel most label = true) :
    (filled before .double label).Sound ∧ (filled before .double label).foreign = 0 := by
  have wordy := label_wordy checked
  have inner : label.all (fun c => c ≠ doubleQuote && c ≠ backslash) = true := by
    refine List.all_eq_true.mpr fun c member => ?_
    have differs (d : Char) (other : isWordChar d = false) : c ≠ d := fun same => wordy_absent wordy.each other (same ▸ member)
    simp [differs doubleQuote (by decide),differs backslash (by decide)]
  refine ⟨⟨wordy_unbroken wordy.each,?_⟩,?_⟩
  · show scalar .double (doubleQuote :: (label ++ [doubleQuote]) ++ []) = some (label ++ [])
    rw [List.append_nil,List.append_nil,double_scalar inner]
  · refine occurrences_absent (by decide : '$' ∈ expressionMark) ?_
    simp only [Style.inlined,List.mem_append,List.mem_cons,List.not_mem_nil,or_false,not_or]
    exact ⟨⟨by decide,wordy_absent wordy.each (by decide)⟩,by decide⟩

-- The forge's host
theorem host_plain (repo : Resource) : ∀ c ∈ repo.host, Qualified.isSegmentChar c = true := by
  obtain ⟨same,grammar⟩ := (Qualified.normalize_exact repo.path Qualified.maxPathSegments repo.path).mp repo.normal
  obtain ⟨host,path,named,_,_,each,whole⟩ := grammar.parts
  rw [← same] at whole
  have first : repo.host = host := by
    rw [Resource.host,whole,Qualified.split_parts named each]
    rfl
  rw [first]
  exact Qualified.host_plain named

theorem fallback_line (repo : Resource) : (fallbackLine repo).Sound ∧ (fallbackLine repo).foreign = 0 := by
  have plain := host_plain repo
  have absent (c : Char) (other : Qualified.isSegmentChar c = false) : c ∉ repo.host :=
    fun member => Bool.false_ne_true (other.symm.trans (plain c member))
  refine ⟨⟨fun c member => ?_,?_⟩,occurrences_absent (by decide : '$' ∈ expressionMark) (absent '$' (by decide))⟩
  · by_contra broken
    rcases Bool.or_eq_true_iff.mp (Bool.not_eq_false _ ▸ broken) with here | here
    · exact absent _ (by decide) (of_decide_eq_true here ▸ member)
    · exact absent _ (by decide) (of_decide_eq_true here ▸ member)
  · have without (c : Char) (other : Qualified.isSegmentChar c = false)
        (rest : c ∉ text "/$\x7b\x7b github.repository_owner \x7d\x7d") :
        c ∉ repo.host ++ text "/$\x7b\x7b github.repository_owner \x7d\x7d" := by
      rw [List.mem_append,not_or]
      exact ⟨absent c other,rest⟩
    have colon : contains (text ": ") (repo.host ++ text "/$\x7b\x7b github.repository_owner \x7d\x7d") = false := by
      rw [contains,contains_absent (by decide : ':' ∈ text ": ") (without ':' (by decide) (by decide))]
      rfl
    have comment : contains (text " #") (repo.host ++ text "/$\x7b\x7b github.repository_owner \x7d\x7d") = false := by
      rw [contains,contains_absent (by decide : '#' ∈ text " #") (without '#' (by decide) (by decide))]
      rfl
    have last : (repo.host ++ text "/$\x7b\x7b github.repository_owner \x7d\x7d").getLast? ≠ some ':' :=
      fun here => without ':' (by decide) (by decide) (List.mem_of_getLast? here)
    have some_ : repo.host ++ text "/$\x7b\x7b github.repository_owner \x7d\x7d" ≠ [] :=
      List.append_ne_nil_of_right_ne_nil _ (by decide)
    refine if_pos ?_
    show keyless (repo.host ++ text "/$\x7b\x7b github.repository_owner \x7d\x7d") = true
    simp only [keyless,colon,comment,Bool.not_false,Bool.and_true,Bool.and_eq_true,Bool.not_eq_true',
      List.isEmpty_eq_false_iff]
    exact ⟨some_,decide_eq_true last⟩

theorem transport_lines (t : VerifyTransport) : ∀ line ∈ transportLine t, line.Sound ∧ line.foreign = 0 := by
  have each (v : Str) (wordy : Wordy v) : ∀ line ∈ [filled "          transport: " .plain v], line.Sound ∧ line.foreign = 0 := by
    intro line member
    rw [List.mem_singleton.mp member]
    exact ⟨wordy_sound _ wordy,wordy_foreign _ wordy.each⟩
  cases t with
  | auto => exact fun line member => nomatch member
  | tsp => exact each (text "tsp") ⟨by decide,List.all_eq_true.mp (by decide),by decide⟩
  | didcomm => exact each (text "didcomm") ⟨by decide,List.all_eq_true.mp (by decide),by decide⟩
  | https => exact each (text "https") ⟨by decide,List.all_eq_true.mp (by decide),by decide⟩

end VerifiableGit.Workflow
