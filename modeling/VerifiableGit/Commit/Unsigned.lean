import VerifiableGit.Commit.Split
import VerifiableGit.Commit.Signer

-- What a signed commit claims before and after its signature headers are removed.
namespace VerifiableGit.Commit
open Text

theorem committer_unnamed (named : NamedSignature l) : stripPrefix (ascii "committer ") l = none := by
  obtain ⟨rest,rfl⟩ := List.isPrefixOf_iff_prefix.mp named
  rfl

theorem committer_unspaced (spaced : l.head? = some space) : stripPrefix (ascii "committer ") l = none := by
  obtain ⟨rest,rfl⟩ := List.head?_eq_some_iff.mp spaced
  rfl

theorem scan_sublist (current : Header) (ls : List Bytes) : (scanHeaders current ls).1.Sublist ls := by
  induction ls generalizing current with
  | nil => exact .slnil
  | cons l ls ih =>
    by_cases continued : current = .signature ∧ l.head? = some space
    · obtain ⟨rfl,spaced⟩ := continued
      rw [scan_continuation spaced]
      exact (ih .signature).cons l
    · cases found : stripPrefix (ascii "gpgsig ") l with
      | some first =>
        rw [scan_signature continued found]
        exact (ih .signature).cons l
      | none =>
        by_cases dropped : (ascii "gpgsig").isPrefixOf l = true ∨ (current = .otherSignature ∧ l.head? = some space)
        · rw [scan_other continued found dropped]
          exact (ih .otherSignature).cons l
        · rw [scan_kept continued found dropped]
          exact (ih .kept).cons_cons l

-- No line that goes is the committer's.
theorem scan_committer (current : Header) (ls : List Bytes) :
    (scanHeaders current ls).1.findSome? (stripPrefix (ascii "committer ")) =
      ls.findSome? (stripPrefix (ascii "committer ")) := by
  induction ls generalizing current with
  | nil => rfl
  | cons l ls ih =>
    rw [List.findSome?_cons]
    by_cases continued : current = .signature ∧ l.head? = some space
    · obtain ⟨rfl,spaced⟩ := continued
      rw [scan_continuation spaced,committer_unspaced spaced]
      exact ih .signature
    · cases found : stripPrefix (ascii "gpgsig ") l with
      | some first =>
        rw [scan_signature continued found,committer_unnamed (signature_named found)]
        exact ih .signature
      | none =>
        by_cases dropped : (ascii "gpgsig").isPrefixOf l = true ∨ (current = .otherSignature ∧ l.head? = some space)
        · have other : stripPrefix (ascii "committer ") l = none := by
            rcases dropped with named | ⟨_,spaced⟩
            · exact committer_unnamed named
            · exact committer_unspaced spaced
          rw [scan_other continued found dropped,other]
          exact ih .otherSignature
        · rw [scan_kept continued found dropped,List.findSome?_cons,ih .kept]

theorem blank_bytes : ascii "\n\n" = [newline,newline] := by decide

-- Only the first header line may be empty.
theorem payload_cut {kept : List Bytes} (full : ∀ l ∈ kept.tail, l ≠ []) (all : ∀ l ∈ kept, Line l) (body : Bytes) :
    splitBlank (joinLines kept ++ ascii "\n\n" ++ body) = some (joinLines kept,body) := by
  have shape : joinLines kept ++ ascii "\n\n" ++ body = joinLines kept ++ newline :: newline :: body := by
    rw [blank_bytes,List.append_assoc]
    rfl
  rw [shape]
  rcases kept with _ | ⟨first,_ | ⟨next,rest⟩⟩
  · exact splitBlank_line (l := []) List.not_mem_nil body
  · rw [joinLines_singleton]
    exact splitBlank_line (all first List.mem_cons_self) body
  · obtain ⟨line,later⟩ := List.forall_mem_cons.mp all
    have some_ : next :: rest ≠ [] := List.cons_ne_nil next rest
    rw [joinLines_cons first some_,List.append_assoc,List.cons_append]
    exact splitBlank_prepend line (joinLines_head full later some_ _) (splitBlank_joinLines full later some_ body)

structure Stripped (raw payload headers body : Bytes) (kept : List Bytes) : Prop where
  utf8 : isUtf8 raw = true
  cut : splitBlank raw = some (headers,body)
  scanned : kept = (scanHeaders .kept (lines headers)).1
  payload : payload = joinLines kept ++ ascii "\n\n" ++ body

theorem split_parts {raw payload pem : Bytes} (split : splitSignedCommit raw = .ok (some (payload,pem))) :
    ∃ headers body kept, Stripped raw payload headers body kept := by
  unfold splitSignedCommit at split
  split at split
  · rename_i utf8
    split at split
    · cases split
    · rename_i headers body cut
      dsimp only at split
      split at split
      · cases split
      · cases split
        exact ⟨headers,body,_,utf8,cut,rfl,rfl⟩
  · cases split

section
variable {raw payload headers body : Bytes} {kept : List Bytes} (stripped : Stripped raw payload headers body kept)
include stripped

theorem stripped_lines : (∀ l ∈ kept.tail, l ≠ []) ∧ ∀ l ∈ kept, Line l := by
  have inside : kept.Sublist (lines headers) := stripped.scanned ▸ scan_sublist .kept (lines headers)
  refine ⟨fun l member => ?_,fun l member => lines_are_lines headers l (inside.subset member)⟩
  exact splitBlank_tail stripped.cut l (inside.tail.subset member)

theorem stripped_cut : splitBlank payload = some (joinLines kept,body) := by
  obtain ⟨full,all⟩ := stripped_lines stripped
  rw [stripped.payload]
  exact payload_cut full all body

theorem stripped_utf8 : isUtf8 payload = true := by
  have whole := stripped.utf8
  rw [splitBlank_sound stripped.cut,utf8_newline,← List.nil_append (newline :: body),utf8_newline] at whole
  obtain ⟨before,_,after⟩ := whole
  have inside : kept.Sublist (lines headers) := stripped.scanned ▸ scan_sublist .kept (lines headers)
  have texts : ∀ l ∈ lines headers, isUtf8 l = true := (utf8_joinLines _).mp ((joinLines_lines headers).symm ▸ before)
  rw [splitBlank_sound (stripped_cut stripped),utf8_newline,← List.nil_append (newline :: body),utf8_newline,utf8_joinLines]
  exact ⟨fun l member => texts l (inside.subset member),(utf8_joinLines []).mpr (List.forall_mem_nil _),after⟩

theorem stripped_committer : committerIdentity payload = committerIdentity raw := by
  have same : (lines (joinLines kept)).findSome? (stripPrefix (ascii "committer ")) =
      (lines headers).findSome? (stripPrefix (ascii "committer ")) := by
    rw [← scan_committer .kept (lines headers),← stripped.scanned]
    cases bare : kept with
    | nil => rfl
    | cons first rest =>
      rw [← bare,lines_joinLines (stripped_lines stripped).2 (bare ▸ List.cons_ne_nil first rest)]
  unfold committerIdentity
  rw [stripped_utf8 stripped,stripped.utf8,stripped_cut stripped,stripped.cut]
  dsimp only
  rw [same]

theorem stripped_trailer (scid : Scid) : trailerDid scid payload = trailerDid scid raw := by
  unfold trailerDid
  rw [stripped_utf8 stripped,stripped.utf8,stripped_cut stripped,stripped.cut]

end

-- The claims of the object and of what was signed are the same.
theorem split_claims (scid : Scid) {raw payload pem : Bytes} (split : splitSignedCommit raw = .ok (some (payload,pem))) :
    signerDid scid raw = signerDid scid payload ∧
      conflictingSignerDids scid raw = conflictingSignerDids scid payload := by
  obtain ⟨headers,body,kept,stripped⟩ := split_parts split
  have trailer := stripped_trailer stripped scid
  have committer : committerDid scid payload = committerDid scid raw := by
    unfold committerDid
    rw [stripped_committer stripped]
  constructor
  · rw [signerDid,signerDid,trailer,committer]
  · rw [conflictingSignerDids,conflictingSignerDids,trailer,committer]

end VerifiableGit.Commit
