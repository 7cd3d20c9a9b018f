/-
Token streams.

A role that is not marked follows from the kind of the token.  Going along a stream for
comments, heads of blocks and keys are kept in mind and all other tokens are passed
over, so a comment before which no key has been read since the last head may be left out
of the stream.
-/
import DesiredState.Configuration.Comments

namespace DesiredState

/-! ### Roles -/

/-- Where no mark is, the role follows from the kind. -/
theorem ClassifiedToken.role_of_unmarked {marks : List Mark} {t : Token}
    (h : ∀ mark ∈ marks, mark.offset ≠ t.start.offset) :
    (ClassifiedToken.of marks.reverse t).role = TokenRole.ofKind t.kind := by
  have hnone : (marks.reverse.find? fun mark => mark.offset == t.start.offset) = none := by
    rw [List.find?_eq_none]
    intro mark hm
    simpa using h mark (List.mem_reverse.mp hm)
  rw [ClassifiedToken.of, hnone]
  rfl

/-- Where all marks are of one role, this is the role. -/
theorem ClassifiedToken.role_of_marked {marks : List Mark} {t : Token} {role : TokenRole}
    (hall : ∀ mark ∈ marks, mark.offset = t.start.offset → mark.role = role)
    (hsome : ∃ mark ∈ marks, mark.offset = t.start.offset) :
    (ClassifiedToken.of marks.reverse t).role = role := by
  obtain ⟨mark, hm, ho⟩ := hsome
  cases hfind : marks.reverse.find? fun mark => mark.offset == t.start.offset with
  | none =>
    have := List.find?_eq_none.mp hfind mark (List.mem_reverse.mpr hm)
    exact absurd ho (by simpa using this)
  | some found =>
    have hmem := List.mem_reverse.mp (List.mem_of_find?_eq_some hfind)
    have hoffset : found.offset = t.start.offset := by simpa using List.find?_some hfind
    rw [ClassifiedToken.of, hfind]
    exact hall found hmem hoffset

theorem TokenRole.ofKind_ne_comment {kind : TokenKind} (h : kind.isComment = false) :
    TokenRole.ofKind kind ≠ .comment := by
  cases kind <;> simp_all [TokenRole.ofKind, TokenKind.isComment]

theorem TokenRole.ofKind_ne_dynamicKeyword (kind : TokenKind) :
    TokenRole.ofKind kind ≠ .dynamicKeyword := by
  cases kind <;> (intro h; cases h)

theorem TokenRole.ofKind_ne_identifier (kind : TokenKind) :
    TokenRole.ofKind kind ≠ .identifier := by
  cases kind <;> (intro h; cases h)

namespace PropertyComment

/-! ### Tokens that are passed over

A scan has a head and a key in mind, and few roles change them.  A stretch of other
tokens is passed over in one step.
-/

/-- A token that is no comment and no head. -/
def IsPassive (t : ClassifiedToken) : Prop := t.role ≠ .comment ∧ t.role ≠ .dynamicKeyword

/-- A token that is no comment, no head and no key. -/
def IsQuiet (t : ClassifiedToken) : Prop := IsPassive t ∧ t.role ≠ .identifier

theorem isQuiet_of_role {t : ClassifiedToken} {role : TokenRole} (h : t.role = role)
    (hrole : role ∉ [TokenRole.comment, .dynamicKeyword, .identifier]) : IsQuiet t := by
  subst h
  simpa [IsQuiet, IsPassive, and_assoc] using hrole

theorem scan_head {t : ClassifiedToken} (h : t.role = .dynamicKeyword) (head : Option BlockHead)
    (key : Option Text) (rest : List ClassifiedToken) :
    scan head key (t :: rest) = scan (some ⟨t.text, nameIn rest⟩) none rest := by
  rw [scan.eq_def]
  simp only [h]

theorem scan_key {t : ClassifiedToken} (h : t.role = .identifier) (head : Option BlockHead)
    (key : Option Text) (rest : List ClassifiedToken) :
    scan head key (t :: rest) = scan head (some t.text) rest := by
  rw [scan.eq_def]
  simp only [h]

theorem scan_comment {t : ClassifiedToken} (h : t.role = .comment) (head : BlockHead) (key : Text)
    (rest : List ClassifiedToken) :
    scan (some head) (some key) (t :: rest) =
      ⟨head.resourceName, head.instanceName, key, t.text⟩ :: scan (some head) (some key) rest := by
  rw [scan.eq_def]
  simp only [h]

theorem scan_other {t : ClassifiedToken} (h : IsQuiet t) (head : Option BlockHead)
    (key : Option Text) (rest : List ClassifiedToken) :
    scan head key (t :: rest) = scan head key rest := by
  obtain ⟨⟨hcomment, hhead⟩, hkey⟩ := h
  rw [scan.eq_def]
  cases hrole : t.role <;> simp_all

/-- Tokens that are quiet change nothing. -/
theorem scan_quiet {tokens : List ClassifiedToken} (h : ∀ t ∈ tokens, IsQuiet t)
    (head : Option BlockHead) (key : Option Text) (rest : List ClassifiedToken) :
    scan head key (tokens ++ rest) = scan head key rest := by
  induction tokens with
  | nil => rfl
  | cons t tokens ih =>
    rw [List.cons_append, scan_other (h t List.mem_cons_self)]
    exact ih fun u hu => h u (List.mem_cons_of_mem t hu)

/-- Of tokens that are no comments and no heads, the last key stays. -/
theorem scan_passive {tokens : List ClassifiedToken} (h : ∀ t ∈ tokens, IsPassive t)
    (head : Option BlockHead) (key : Option Text) (rest : List ClassifiedToken) :
    ∃ last, scan head key (tokens ++ rest) = scan head last rest := by
  induction tokens generalizing key with
  | nil => exact ⟨key, rfl⟩
  | cons t tokens ih =>
    have hmore : ∀ u ∈ tokens, IsPassive u := fun u hu => h u (List.mem_cons_of_mem t hu)
    by_cases hkey : t.role = .identifier
    · rw [List.cons_append, scan_key hkey]
      exact ih hmore (some t.text)
    · rw [List.cons_append, scan_other ⟨h t List.mem_cons_self, hkey⟩]
      exact ih hmore key

/-! ### Comments that belong to nothing

A comment before the first key behind a head is dropped by the scan.  Left out of the
stream, it is missed nowhere but in the name of a block, and there comments do not count
either.
-/

/-- Before the first key of a block a comment changes nothing. -/
theorem scan_comment_of_none {t : ClassifiedToken} (h : t.role = .comment)
    {head : Option BlockHead} {key : Option Text} (hnone : (head.isSome && key.isSome) = false)
    (rest : List ClassifiedToken) : scan head key (t :: rest) = scan head key rest := by
  rw [scan.eq_def]
  simp only [h]
  cases head with
  | none => rfl
  | some found =>
    cases key with
    | none => rfl
    | some name => cases hnone

/-- Whether a comment behind these tokens belongs to a property: whether a key has been read since
the last head of a block. -/
def followsKey : (head key : Bool) → List ClassifiedToken → Bool
  | head, key, [] => head && key
  | head, key, t :: rest =>
    match t.role with
    | .dynamicKeyword => followsKey true false rest
    | .identifier => followsKey head true rest
    | _ => followsKey head key rest

variable {p : ClassifiedToken → Bool}

theorem textToBrace_filter (hp : ∀ t, p t → t.role = .comment) (stop : Option Nat)
    (tokens : List ClassifiedToken) :
    textToBrace stop (tokens.filter fun t => !p t) = textToBrace stop tokens := by
  induction tokens generalizing stop with
  | nil => rfl
  | cons t rest ih =>
    by_cases h : p t
    · rw [List.filter_cons_of_neg (by simpa using h), ih, textToBrace, if_pos (hp t h)]
    · rw [List.filter_cons_of_pos (by simpa using h), textToBrace, textToBrace, ih, ih]

/-- **Comments that belong to nothing may be left out.** -/
theorem scan_filter (hp : ∀ t, p t → t.role = .comment) (tokens : List ClassifiedToken)
    (head : Option BlockHead) (key : Option Text)
    (h : ∀ front t behind, tokens = front ++ t :: behind → p t →
      followsKey head.isSome key.isSome front = false) :
    scan head key (tokens.filter fun t => !p t) = scan head key tokens := by
  induction tokens generalizing head key with
  | nil => rfl
  | cons t rest ih =>
    have hrest {head' key'} (hfollows : ∀ front, followsKey head.isSome key.isSome (t :: front) =
        followsKey (Option.isSome head') (Option.isSome key') front) :
        scan head' key' (rest.filter fun t => !p t) = scan head' key' rest := by
      refine ih head' key' ?_
      intro front u behind hsplit hu
      rw [← hfollows]
      exact h (t :: front) u behind (by rw [hsplit]; rfl) hu
    by_cases hselected : p t
    · have hrole := hp t hselected
      rw [List.filter_cons_of_neg (by simpa using hselected),
        scan_comment_of_none hrole (h [] t rest rfl hselected)]
      exact hrest fun front => by rw [followsKey, hrole]
    · rw [List.filter_cons_of_pos (by simpa using hselected)]
      by_cases hhead : t.role = .dynamicKeyword
      · have hname : nameIn (rest.filter fun t => !p t) = nameIn rest := by
          unfold nameIn
          rw [textToBrace_filter hp]
        rw [scan_head hhead, scan_head hhead, hname]
        exact hrest fun front => by rw [followsKey, hhead]; rfl
      by_cases hkey : t.role = .identifier
      · rw [scan_key hkey, scan_key hkey]
        exact hrest fun front => by rw [followsKey, hkey]; rfl
      have hsame := @hrest head key fun front => by
        rw [followsKey]
        split
        · exact absurd ‹_› hhead
        · exact absurd ‹_› hkey
        · rfl
      by_cases hcomment : t.role = .comment
      · cases hsome : head.isSome && key.isSome with
        | false => rw [scan_comment_of_none hcomment hsome, scan_comment_of_none hcomment hsome, hsame]
        | true =>
          obtain ⟨hh, hk⟩ := Bool.and_eq_true_iff.mp hsome
          obtain ⟨found, rfl⟩ := Option.isSome_iff_exists.mp hh
          obtain ⟨name, rfl⟩ := Option.isSome_iff_exists.mp hk
          rw [scan_comment hcomment, scan_comment hcomment, hsame]
      · have hquiet : IsQuiet t := ⟨⟨hcomment, hhead⟩, hkey⟩
        rw [scan_other hquiet, scan_other hquiet, hsame]

/-- The first node keyword is no comment. -/
theorem fromNode_filter (hp : ∀ t, p t → t.role = .comment) (tokens : List ClassifiedToken) :
    fromNode (tokens.filter fun t => !p t) = (fromNode tokens).filter fun t => !p t := by
  have hkept {t : ClassifiedToken} (rest : List ClassifiedToken) (h : isNodeKeyword t) :
      (t :: rest).filter (fun t => !p t) = t :: rest.filter fun t => !p t := by
    by_cases hselected : p t
    · rw [isNodeKeyword, hp t hselected] at h
      cases h
    · exact List.filter_cons_of_pos (by simpa using hselected)
  have hdrop : ∀ list : List ClassifiedToken,
      (list.filter fun t => !p t).dropWhile (fun t => !isNodeKeyword t) =
        (list.dropWhile fun t => !isNodeKeyword t).filter fun t => !p t := by
    intro list
    induction list with
    | nil => rfl
    | cons t rest ih =>
      by_cases hkeyword : isNodeKeyword t
      · rw [hkept rest hkeyword, List.dropWhile_cons_of_neg (by simpa),
          List.dropWhile_cons_of_neg (by simpa), hkept rest hkeyword]
      · rw [List.dropWhile_cons_of_pos (by simpa using hkeyword), ← ih]
        by_cases h : p t
        · rw [List.filter_cons_of_neg (by simpa using h)]
        · rw [List.filter_cons_of_pos (by simpa using h),
            List.dropWhile_cons_of_pos (by simpa using hkeyword)]
  unfold fromNode
  rw [hdrop]
  cases hfound : tokens.dropWhile fun t => !isNodeKeyword t with
  | nil => rfl
  | cons t rest =>
    have hkeyword : isNodeKeyword t := by
      have := List.head?_dropWhile_not (fun t => !isNodeKeyword t) tokens
      rw [hfound] at this
      simpa using this
    rw [hkept rest hkeyword]

/-- **The comments on properties are the same without comments that belong to nothing.** -/
theorem ofTokens_filter (hp : ∀ t, p t → t.role = .comment) (tokens : List ClassifiedToken)
    (h : ∀ front t behind, fromNode tokens = front ++ t :: behind → p t →
      followsKey false false front = false) :
    ofTokens (tokens.filter fun t => !p t) = ofTokens tokens := by
  unfold ofTokens
  rw [fromNode_filter hp]
  exact scan_filter hp _ none none h

end PropertyComment

end DesiredState
