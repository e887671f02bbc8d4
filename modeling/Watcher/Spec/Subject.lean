import Watcher.ForStd.List
import Watcher.Model.Publisher

/-!
# Subjects that names cannot leave

A NATS subject is a sequence of tokens with a dot between any two. It is literal
when no token is a wildcard; white space is no part of it, since it delimits the
lines of the protocol.

Names of schemas and tables come from the database and may hold any character.
`sanitizeSubjectToken` replaces separators, wildcards and spaces, so a name is
always one token (`tokens_buildSubject`). It does not replace the other white
space, and a subject stays within its prefix exactly when the names have none
(`contained_iff`).
-/

namespace Nats

open Cdc List

/-! ## Subjects -/

def tokens (subject : GoString) : List GoString := subject.splitOn 0x2e

/-- Space, tab, carriage return and line feed. -/
def isSpace (b : UInt8) : Bool := b ∈ ascii " \t\r\n"

/-- A token that stands for itself. -/
def IsLiteralToken (t : GoString) : Prop :=
  t ≠ [] ∧ t ≠ ascii "*" ∧ t ≠ ascii ">" ∧ ∀ b ∈ t, ¬isSpace b

/-- A valid subject without wildcards. -/
def IsLiteral (subject : GoString) : Prop := ∀ t ∈ tokens subject, IsLiteralToken t

/-- A token without any character that subjects or the protocol treat specially. -/
def IsPlainToken (t : GoString) : Prop := t ≠ [] ∧ ∀ b ∈ t, b ∉ ascii ".*>" ∧ ¬isSpace b

/-- The subject is valid, and it is the prefix with two more plain tokens. -/
def Contained (subjectPrefix subject : GoString) : Prop :=
  IsLiteral subject ∧ ∃ schema table,
    tokens subject = tokens subjectPrefix ++ [schema, table] ∧
      IsPlainToken schema ∧ IsPlainToken table

/-- White space that `sanitizeSubjectToken` leaves in place. -/
def isTabOrNewline (b : UInt8) : Bool := b ∈ ascii "\t\r\n"

theorem tokens_append_dot (s t : GoString) : tokens (s ++ 0x2e :: t) = tokens s ++ tokens t :=
  splitOnP_append_cons s t (beq_self_eq_true _)

theorem IsPlainToken.isLiteralToken {t : GoString} (h : IsPlainToken t) : IsLiteralToken t := by
  obtain ⟨hne, hplain⟩ := h
  have hnot : ∀ b, b ∈ ascii ".*>" → t ≠ [b] := by
    intro b hb ht
    exact (hplain b (by rw [ht]; exact mem_singleton_self b)).1 hb
  exact ⟨hne, hnot 0x2a (by decide), hnot 0x3e (by decide), fun b hb => (hplain b hb).2⟩

/-! ## Names -/

/-- What a character becomes. -/
private theorem sanitized_byte (b : UInt8) :
    let c := if b ∈ ascii ".*> " then 0x5f else b
    c ∉ ascii ".*>" ∧ (isSpace c = isTabOrNewline b) := by
  by_cases hb : b ∈ ascii ".*> "
  · rw [if_pos hb]
    have hset : ∀ b ∈ ascii ".*> ", isTabOrNewline b = false :=
      forall_mem_of_all (by decide)
    exact ⟨by decide, (hset b hb).symm⟩
  · rw [if_neg hb]
    have hmem : ascii ".*> " = ascii ".*>" ++ [0x20] := rfl
    rw [hmem, mem_append, not_or, mem_singleton] at hb
    refine ⟨hb.1, ?_⟩
    show decide (b ∈ 0x20 :: ascii "\t\r\n") = decide (b ∈ ascii "\t\r\n")
    simp only [mem_cons, hb.2, false_or]

/-- A name becomes a plain token exactly when it has no white space but spaces. -/
theorem isPlainToken_sanitize_iff {s : GoString} (hs : s ≠ []) :
    IsPlainToken (sanitizeSubjectToken s) ↔ ∀ b ∈ s, ¬isTabOrNewline b := by
  have hne : sanitizeSubjectToken s ≠ [] := fun h => hs (map_eq_nil_iff.mp h)
  constructor
  · intro h b hb
    rw [← (sanitized_byte b).2]
    exact (h.2 _ (mem_map_of_mem hb)).2
  · intro h
    refine ⟨hne, fun c hc => ?_⟩
    obtain ⟨b, hb, rfl⟩ := mem_map.mp hc
    refine ⟨(sanitized_byte b).1, ?_⟩
    rw [(sanitized_byte b).2]
    exact h b hb

/-- Whatever the name, there is no separator in it. -/
theorem tokens_sanitize (s : GoString) :
    tokens (sanitizeSubjectToken s) = [sanitizeSubjectToken s] := by
  apply splitOn_eq_singleton
  intro hdot
  obtain ⟨b, -, hb⟩ := mem_map.mp hdot
  apply (sanitized_byte b).1
  rw [hb]
  decide

/-- What stands for a missing name. -/
def nameOr (default name : GoString) : GoString := if name = [] then default else name

theorem tokens_buildSubject (subjectPrefix schema table : GoString) :
    tokens (buildSubject subjectPrefix schema table) = tokens subjectPrefix ++
      [sanitizeSubjectToken (nameOr (ascii "default") schema),
        sanitizeSubjectToken (nameOr (ascii "_ddl") table)] := by
  have hdot : ascii "." = [0x2e] := rfl
  simp only [buildSubject, hdot, append_assoc, cons_append, nil_append]
  rw [tokens_append_dot, tokens_append_dot, tokens_sanitize, tokens_sanitize]
  rfl

theorem isPlainToken_name_iff (default : GoString) (hne : default ≠ [])
    (hdefault : ∀ b ∈ default, ¬isTabOrNewline b) (name : GoString) :
    IsPlainToken (sanitizeSubjectToken (nameOr default name)) ↔ ∀ b ∈ name, ¬isTabOrNewline b := by
  unfold nameOr
  by_cases hname : name = []
  · rw [if_pos hname, isPlainToken_sanitize_iff hne, hname]
    exact ⟨fun _ b hb => absurd hb not_mem_nil, fun _ => hdefault⟩
  · rw [if_neg hname, isPlainToken_sanitize_iff hname]

/-- Every subject stays within its prefix exactly when the names have no tab and no newline. -/
theorem contained_iff {subjectPrefix : GoString} (hliteral : IsLiteral subjectPrefix)
    (schema table : GoString) :
    Contained subjectPrefix (buildSubject subjectPrefix schema table) ↔
      ∀ b ∈ schema ++ table, ¬isTabOrNewline b := by
  have hschema := isPlainToken_name_iff (ascii "default") (by decide)
    (forall_mem_of_all (by decide)) schema
  have htable := isPlainToken_name_iff (ascii "_ddl") (by decide)
    (forall_mem_of_all (by decide)) table
  rw [forall_mem_append, ← hschema, ← htable]
  constructor
  · rintro ⟨-, s, t, htokens, hs, ht⟩
    rw [tokens_buildSubject] at htokens
    have hlast := append_cancel_left htokens
    rw [List.cons.injEq, List.cons.injEq] at hlast
    rw [hlast.1, hlast.2.1]
    exact ⟨hs, ht⟩
  · intro ⟨hs, ht⟩
    refine ⟨?_, _, _, tokens_buildSubject subjectPrefix schema table, hs, ht⟩
    intro t hmem
    rw [tokens_buildSubject, mem_append] at hmem
    rcases hmem with hmem | hmem
    · exact hliteral t hmem
    · rw [mem_pair] at hmem
      rcases hmem with rfl | rfl
      · exact hs.isLiteralToken
      · exact ht.isLiteralToken

theorem isLiteral_of_all {subject : GoString} (h : (tokens subject).all fun t =>
    t ≠ [] ∧ t ≠ ascii "*" ∧ t ≠ ascii ">" ∧ t.all fun b => !isSpace b) : IsLiteral subject := by
  intro t ht
  obtain ⟨hne, hstar, hgt, hspace⟩ := of_decide_eq_true (all_eq_true.mp h t ht)
  refine ⟨hne, hstar, hgt, fun b hb => ?_⟩
  simpa using all_eq_true.mp hspace b hb

theorem contained_orders :
    IsLiteral (ascii "cdc.tenant1") ∧
      Contained (ascii "cdc.tenant1") (buildSubject (ascii "cdc.tenant1") (ascii "a.b >") []) := by
  have hliteral : IsLiteral (ascii "cdc.tenant1") := isLiteral_of_all (by decide)
  exact ⟨hliteral, (contained_iff hliteral _ _).mpr (forall_mem_of_all (by decide))⟩

/-- A line feed in a table name is in the subject, where it ends the protocol line. -/
theorem newline_not_contained :
    IsLiteral (ascii "cdc") ∧
      buildSubject (ascii "cdc") (ascii "public") (ascii "a\nb") = ascii "cdc.public.a\nb" ∧
      ¬Contained (ascii "cdc") (buildSubject (ascii "cdc") (ascii "public") (ascii "a\nb")) := by
  refine ⟨isLiteral_of_all (by decide), by decide, ?_⟩
  intro ⟨hvalid, _⟩
  have htoken := hvalid (ascii "a\nb") (by decide)
  exact htoken.2.2.2 0x0a (by decide) (by decide)

end Nats
