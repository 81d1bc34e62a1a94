import Mathlib
import Spelunk.Core.ProjectId

/-!
# Project Ids and Repositories

`normaliseGitUrl` cuts a URL at its first `://` and first `@`, and takes its first colon for that of
the short form. `RepoSpelling` is a repository with what may stand around its host and path in a
URL; what is left of it is computed once, and the ids follow from that.

## Main definitions

* `RepoSpelling`: A spelling of a repository.
* `RepoSpelling.repo`: The id it should have.
* `asciiLowercase`: Lower-casing where there is nothing but ASCII.

## Theorems

* `normaliseGitUrl_text`: The id of a URL.
* `normaliseGitUrl_eq_iff`: When it is that of the repository.
* `repo_eq_iff`: Which repositories share one.
* `normaliseGitUrl_idem_iff`: When an id is its own id.
* `projectIdLaw`: All of it.
-/

namespace Spelunk

/-! ### The spellings of a repository -/

/-- The three ways to write the URL of a remote. -/
inductive UrlStyle where
  | https
  | ssh
  | scp
deriving DecidableEq, Repr

/-- A text without the signs that part a URL. -/
def Unsigned (t : List Char) : Prop := '/' ∉ t ∧ ':' ∉ t ∧ '@' ∉ t

/-- A spelling of a repository: a host and a path of names, and what may stand around them. -/
structure RepoSpelling where
  style : UrlStyle
  user : Option (List Char)
  host : List Char
  port : Option (List Char)
  path : List Char
  gitSuffix : Bool
  user_unsigned : ∀ u ∈ user, Unsigned u
  host_unsigned : Unsigned host
  host_ne_nil : host ≠ []
  port_unsigned : ∀ p ∈ port, Unsigned p
  port_scp : style = .scp → port = none
  path_ne_nil : path ≠ []
  path_colon : ':' ∉ path
  path_head : path.head? ≠ some '/'
  path_git : ¬['.', 'g', 'i', 't'] <:+ path

namespace RepoSpelling

def schemeText (r : RepoSpelling) : List Char :=
  match r.style with
  | .https => ['h', 't', 't', 'p', 's', ':', '/', '/']
  | .ssh => ['s', 's', 'h', ':', '/', '/']
  | .scp => []

def userText (r : RepoSpelling) : List Char := r.user.elim [] (· ++ ['@'])

def portText (r : RepoSpelling) : List Char := r.port.elim [] (':' :: ·)

/-- What stands between the host and the path. -/
def between (r : RepoSpelling) : Char := if r.style = .scp then ':' else '/'

def gitText (r : RepoSpelling) : List Char := if r.gitSuffix then ['.', 'g', 'i', 't'] else []

/-- The URL. -/
def text (r : RepoSpelling) : List Char :=
  r.schemeText ++ (r.userText ++ (r.host ++ (r.portText ++ r.between :: (r.path ++ r.gitText))))

theorem notMem_gitText (r : RepoSpelling) {c : Char} (hc : c ∉ ['.', 'g', 'i', 't']) :
    c ∉ r.gitText := by
  unfold gitText
  split
  · exact hc
  · exact List.not_mem_nil

/-- The repository that is meant. -/
def repo (lower : Lowercase) (r : RepoSpelling) : List Char := lower.run (r.host ++ '/' :: r.path)

/-- What is read of the path: without a user, an `@` of the path counts as the end of one. -/
def pathRead (r : RepoSpelling) : List Char :=
  if r.user.isSome then r.path else (behindFirst ['@'] r.path).getD r.path

/-- What stands in front of it in the id. -/
def front (r : RepoSpelling) : List Char :=
  if r.user.isSome = true ∨ '@' ∉ r.path then
    r.host ++ (r.port.elim [] ('/' :: ·) ++ ['/'])
  else []

end RepoSpelling

/-! ### The cuts -/

section Cuts

variable {a b t : List Char} {c : Char}

theorem behindFirst_char (ha : c ∉ a) : behindFirst [c] (a ++ c :: b) = some b := by
  induction a with
  | nil =>
    rw [List.nil_append, behindFirst, if_pos (by simp)]
    rfl
  | cons x a ih =>
    have hx : x ≠ c := fun h => ha (h ▸ List.mem_cons_self)
    rw [List.cons_append, behindFirst, if_neg (by simp [Ne.symm hx]),
      ih fun h => ha (List.mem_cons_of_mem _ h)]

theorem behindFirst_none (ht : c ∉ t) (sep : List Char) : behindFirst (c :: sep) t = none := by
  induction t with
  | nil => rfl
  | cons x t ih =>
    have hx : x ≠ c := fun h => ht (h ▸ List.mem_cons_self)
    rw [behindFirst, if_neg (by simp [Ne.symm hx]),
      ih fun h => ht (List.mem_cons_of_mem _ h)]

/-- A colon without slashes behind it is no scheme. -/
theorem behindFirst_colon (ha : ':' ∉ a) (hb : ':' ∉ b) (hhead : b.head? ≠ some '/') :
    behindFirst [':', '/', '/'] (a ++ ':' :: b) = none := by
  induction a with
  | nil =>
    rw [List.nil_append, behindFirst, if_neg, behindFirst_none hb]
    rcases b with _ | ⟨x, b⟩
    · simp
    · have hx : x ≠ '/' := fun h => hhead (by rw [h]; rfl)
      simp [Ne.symm hx]
  | cons x a ih =>
    have hx : x ≠ ':' := fun h => ha (h ▸ List.mem_cons_self)
    rw [List.cons_append, behindFirst, if_neg (by simp [Ne.symm hx]),
      ih fun h => ha (List.mem_cons_of_mem _ h)]

theorem colonToSlash_append (ha : ':' ∉ a) : colonToSlash (a ++ ':' :: b) = a ++ '/' :: b := by
  induction a with
  | nil => rw [List.nil_append, colonToSlash, if_pos rfl, List.nil_append]
  | cons x a ih =>
    have hx : x ≠ ':' := fun h => ha (h ▸ List.mem_cons_self)
    rw [List.cons_append, colonToSlash, if_neg hx, ih fun h => ha (List.mem_cons_of_mem _ h),
      List.cons_append]

theorem colonToSlash_self (ht : ':' ∉ t) : colonToSlash t = t := by
  induction t with
  | nil => rfl
  | cons x t ih =>
    have hx : x ≠ ':' := fun h => ht (h ▸ List.mem_cons_self)
    rw [colonToSlash, if_neg hx, ih fun h => ht (List.mem_cons_of_mem _ h)]

/-- `strip_suffix(".git")`. -/
theorem stripGit_append (t : List Char) :
    stripGit (t ++ ['.', 'g', 'i', 't']) = t := by
  rw [stripGit, if_pos (List.isSuffixOf_iff_suffix.2 (List.suffix_append _ _))]
  simp

theorem stripGit_self (ht : ¬['.', 'g', 'i', 't'] <:+ t) : stripGit t = t := by
  rw [stripGit, if_neg (by rwa [List.isSuffixOf_iff_suffix])]

theorem exists_stripGit (t : List Char) : ∃ g, t = stripGit t ++ g := by
  by_cases h : ['.', 'g', 'i', 't'] <:+ t
  · obtain ⟨s, rfl⟩ := h
    exact ⟨['.', 'g', 'i', 't'], by rw [stripGit_append]⟩
  · exact ⟨[], by rw [stripGit_self h, List.append_nil]⟩

/-- The ending is that of the path. -/
theorem git_suffix_iff :
    ['.', 'g', 'i', 't'] <:+ a ++ '/' :: b ↔ ['.', 'g', 'i', 't'] <:+ b := by
  refine ⟨fun h => ?_, fun h => h.trans ((List.suffix_cons _ _).trans (List.suffix_append _ _))⟩
  rcases List.suffix_or_suffix_of_suffix h
    ((List.suffix_append a ('/' :: b))) with hsuffix | hsuffix
  · rcases List.suffix_cons_iff.1 hsuffix with heq | hb
    · exact absurd (heq ▸ List.mem_cons_self : '/' ∈ ['.', 'g', 'i', 't']) (by decide)
    · exact hb
  · exact absurd (hsuffix.subset List.mem_cons_self) (by decide)

end Cuts

/-! ### When an id is that of the repository -/

section Ids

variable {lower : Lowercase} {r r' : RepoSpelling} {a b t : List Char}

theorem colon_notMem_path (r : RepoSpelling) : ':' ∉ r.path ++ r.gitText := by
  rw [List.mem_append, not_or]
  exact ⟨r.path_colon, r.notMem_gitText (by decide)⟩

theorem pathRead_eq (h : r.user.isSome = true ∨ '@' ∉ r.path) : r.pathRead = r.path := by
  unfold RepoSpelling.pathRead
  split
  · rfl
  · next hu => rw [behindFirst_none (h.resolve_left hu), Option.getD_none]

/-- What is left of a URL without its scheme. -/
theorem behindFirst_scheme (r : RepoSpelling) :
    (behindFirst [':', '/', '/'] r.text).getD r.text =
      r.userText ++ (r.host ++ (r.portText ++ r.between :: (r.path ++ r.gitText))) := by
  rcases hstyle : r.style with _ | _ | _
  · rw [RepoSpelling.text, RepoSpelling.schemeText, hstyle]
    rfl
  · rw [RepoSpelling.text, RepoSpelling.schemeText, hstyle]
    rfl
  · have huser : ':' ∉ r.userText := by
      unfold RepoSpelling.userText
      rcases hu : r.user with _ | u
      · exact List.not_mem_nil
      · have hu' := (r.user_unsigned u hu).2.1
        simpa using hu'
    have hcolon : ':' ∉ r.userText ++ r.host := by
      rw [List.mem_append, not_or]
      exact ⟨huser, r.host_unsigned.2.1⟩
    have hhead : (r.path ++ r.gitText).head? ≠ some '/' := by
      rcases hp : r.path with _ | ⟨x, path⟩
      · exact absurd hp r.path_ne_nil
      · have := r.path_head
        rw [hp] at this
        exact this
    have htext : r.text = (r.userText ++ r.host) ++ ':' :: (r.path ++ r.gitText) := by
      rw [RepoSpelling.text, RepoSpelling.schemeText, RepoSpelling.portText, hstyle,
        r.port_scp hstyle, RepoSpelling.between, if_pos hstyle]
      simp
    rw [htext, behindFirst_colon hcolon (colon_notMem_path r) hhead, Option.getD_none,
      List.append_assoc, RepoSpelling.portText, r.port_scp hstyle, RepoSpelling.between,
      if_pos hstyle, Option.elim_none, List.nil_append]

/-- Host and port have no `@`. -/
theorem notMem_at_front (r : RepoSpelling) : '@' ∉ r.host ++ (r.portText ++ [r.between]) := by
  rw [List.mem_append, List.mem_append, List.mem_singleton]
  rintro (h | h | h)
  · exact r.host_unsigned.2.2 h
  · unfold RepoSpelling.portText at h
    rcases hp : r.port with _ | p
    · rw [hp] at h
      exact absurd h List.not_mem_nil
    · rw [hp, Option.elim_some, List.mem_cons] at h
      rcases h with h | h
      · exact absurd h (by decide)
      · exact (r.port_unsigned p hp).2.2 h
  · unfold RepoSpelling.between at h
    split at h
    · exact absurd h (by decide)
    · exact absurd h (by decide)

/-- What is left without the user, where there is one or the path has no `@`. -/
theorem behindFirst_user (h : r.user.isSome = true ∨ '@' ∉ r.path) :
    let t := r.userText ++ (r.host ++ (r.portText ++ r.between :: (r.path ++ r.gitText)))
    (behindFirst ['@'] t).getD t =
      r.host ++ (r.portText ++ r.between :: (r.path ++ r.gitText)) := by
  intro t
  rcases hu : r.user with _ | u
  · have ht : t = r.host ++ (r.portText ++ r.between :: (r.path ++ r.gitText)) := by
      show r.userText ++ _ = _
      rw [RepoSpelling.userText, hu]
      rfl
    have hpath : '@' ∉ r.path := by
      rw [hu] at h
      exact h.resolve_left (by simp)
    have hnone : '@' ∉ t := by
      have hsplit : t = (r.host ++ (r.portText ++ [r.between])) ++ (r.path ++ r.gitText) := by
        rw [ht]
        simp
      rw [hsplit, List.mem_append, not_or, List.mem_append (s := r.path), not_or]
      exact ⟨notMem_at_front r, hpath, r.notMem_gitText (by decide)⟩
    rw [behindFirst_none hnone, Option.getD_none, ht]
  · have ht : t = u ++ '@' :: (r.host ++ (r.portText ++ r.between :: (r.path ++ r.gitText))) := by
      show r.userText ++ _ = _
      rw [RepoSpelling.userText, hu, Option.elim_some, List.append_assoc, List.singleton_append]
    rw [ht, behindFirst_char (r.user_unsigned u hu).2.2, Option.getD_some]

theorem count_host (r : RepoSpelling) (t : List Char) :
    (r.host ++ '/' :: t).count '/' = t.count '/' + 1 := by
  rw [List.count_append, List.count_eq_zero.2 r.host_unsigned.1, List.count_cons_self,
    Nat.zero_add]

theorem stripGit_path (r : RepoSpelling) (front : List Char) :
    stripGit (front ++ '/' :: (r.path ++ r.gitText)) = front ++ '/' :: r.path := by
  unfold RepoSpelling.gitText
  split
  · rw [← List.cons_append, ← List.append_assoc, stripGit_append]
  · rw [List.append_nil, stripGit_self]
    rw [git_suffix_iff]
    exact r.path_git

/-- The id of a URL. -/
theorem normaliseGitUrl_text (lower : Lowercase) (r : RepoSpelling) :
    normaliseGitUrl lower r.text = lower.run (r.front ++ r.pathRead) := by
  rw [normaliseGitUrl, behindFirst_scheme]
  by_cases huser : r.user.isSome = true ∨ '@' ∉ r.path
  · rw [behindFirst_user huser, RepoSpelling.front, if_pos huser, pathRead_eq huser]
    rcases hport : r.port with _ | p
    · -- The colon of the short form is a slash, and there is no other.
      have hslash : colonToSlash (r.host ++ (r.portText ++ r.between :: (r.path ++ r.gitText))) =
          r.host ++ '/' :: (r.path ++ r.gitText) := by
        rw [RepoSpelling.portText, hport, Option.elim_none, List.nil_append]
        unfold RepoSpelling.between
        split
        · exact colonToSlash_append r.host_unsigned.2.1
        · refine colonToSlash_self ?_
          rw [List.mem_append, List.mem_cons]
          rintro (h | h | h)
          · exact r.host_unsigned.2.1 h
          · exact absurd h (by decide)
          · exact colon_notMem_path r h
      rw [hslash, stripGit_path]
      simp
    · -- The port stays, with a slash of its own.
      have hstyle : r.style ≠ .scp := fun h => by
        have := r.port_scp h
        rw [hport] at this
        cases this
      have hslash : colonToSlash (r.host ++ (r.portText ++ r.between :: (r.path ++ r.gitText))) =
          (r.host ++ '/' :: p) ++ '/' :: (r.path ++ r.gitText) := by
        rw [RepoSpelling.portText, hport, Option.elim_some, RepoSpelling.between,
          if_neg hstyle, List.cons_append, colonToSlash_append r.host_unsigned.2.1]
        simp
      rw [hslash, stripGit_path]
      simp
  · -- What stands in front of the `@` of the path is cut off.
    rw [RepoSpelling.front, if_neg huser, List.nil_append]
    rw [not_or, not_not] at huser
    obtain ⟨hu, hat⟩ := huser
    obtain ⟨before, back, hsplit, hbefore⟩ := List.eq_append_cons_of_mem hat
    have hread : r.pathRead = back := by
      rw [RepoSpelling.pathRead, if_neg hu, hsplit, behindFirst_char hbefore, Option.getD_some]
    have htext : r.userText ++ (r.host ++ (r.portText ++ r.between :: (r.path ++ r.gitText))) =
        ((r.host ++ (r.portText ++ [r.between])) ++ before) ++ '@' :: (back ++ r.gitText) := by
      have hnone : r.user = none := by simpa using hu
      rw [RepoSpelling.userText, hnone, hsplit]
      simp
    have hcut : '@' ∉ (r.host ++ (r.portText ++ [r.between])) ++ before := by
      rw [List.mem_append, not_or]
      exact ⟨notMem_at_front r, hbefore⟩
    have hback : ':' ∉ back ++ r.gitText := by
      rw [List.mem_append, not_or]
      exact ⟨fun h => r.path_colon (hsplit ▸ List.mem_append_right _ (List.mem_cons_of_mem _ h)),
        r.notMem_gitText (by decide)⟩
    have hstrip : stripGit (back ++ r.gitText) = back := by
      unfold RepoSpelling.gitText
      split
      · exact stripGit_append back
      · rw [List.append_nil, stripGit_self]
        intro h
        refine r.path_git ?_
        rw [hsplit]
        exact h.trans ((List.suffix_cons _ _).trans (List.suffix_append _ _))
    rw [htext, behindFirst_char hcut, Option.getD_some, colonToSlash_self hback, hstrip, hread]

/-- The id of a URL is that of its repository exactly if there is no port, and a user where the path
    has an `@`. -/
theorem normaliseGitUrl_eq_iff (lower : Lowercase) (r : RepoSpelling) :
    normaliseGitUrl lower r.text = r.repo lower ↔
      r.port = none ∧ (r.user.isSome = true ∨ '@' ∉ r.path) := by
  rw [normaliseGitUrl_text, RepoSpelling.repo]
  by_cases huser : r.user.isSome = true ∨ '@' ∉ r.path
  · rw [RepoSpelling.front, if_pos huser, pathRead_eq huser]
    rcases hport : r.port with _ | p
    · rw [Option.elim_none, List.nil_append, List.append_assoc, List.singleton_append]
      exact ⟨fun _ => ⟨rfl, huser⟩, fun _ => rfl⟩
    · -- A port brings a slash of its own.
      refine ⟨fun h => ?_, fun h => absurd h.1 (by simp)⟩
      have hcount := congrArg (List.count '/') h
      rw [lower.sign _ _ (by decide), lower.sign _ _ (by decide)] at hcount
      simp only [Option.elim_some, List.count_append, List.count_cons_self,
        List.count_nil] at hcount
      omega
  · -- Without what stands in front of the `@` at least one slash is missing.
    refine ⟨fun h => ?_, fun h => absurd h.2 huser⟩
    have hcount := congrArg (List.count '/') h
    rw [RepoSpelling.front, if_neg huser, List.nil_append, lower.sign _ _ (by decide),
      lower.sign _ _ (by decide), count_host] at hcount
    rw [not_or, not_not] at huser
    obtain ⟨before, back, hsplit, hbefore⟩ := List.eq_append_cons_of_mem huser.2
    rw [RepoSpelling.pathRead, if_neg huser.1, hsplit, behindFirst_char hbefore, Option.getD_some,
      List.count_append, List.count_cons_of_ne (by decide)] at hcount
    omega

/-- Ids that are those of their repositories are equal exactly if hosts and paths are equal but for
    the letter case. -/
theorem repo_eq_iff (lower : Lowercase) (r r' : RepoSpelling) :
    r.repo lower = r'.repo lower ↔
      lower.run r.host = lower.run r'.host ∧ lower.run r.path = lower.run r'.path := by
  have hslash : ∀ r : RepoSpelling, '/' ∉ lower.run r.host := fun r h => by
    have hcount := lower.sign r.host '/' (by decide)
    rw [List.count_eq_zero.2 r.host_unsigned.1] at hcount
    exact List.count_eq_zero.1 hcount h
  have htake : ∀ (r : RepoSpelling) (t : List Char),
      (lower.run r.host ++ '/' :: t).takeWhile (· ≠ '/') = lower.run r.host := by
    intro r t
    have hall : ∀ c ∈ lower.run r.host, decide (c ≠ '/') = true := fun c hc =>
      decide_eq_true (by rintro rfl; exact hslash r hc)
    rw [List.takeWhile_append_of_pos hall, List.takeWhile_cons_of_neg (by simp), List.append_nil]
  rw [RepoSpelling.repo, RepoSpelling.repo, lower.slash, lower.slash]
  constructor
  · intro h
    have hhost : lower.run r.host = lower.run r'.host := by
      rw [← htake r (lower.run r.path), h, htake]
    rw [hhost] at h
    exact ⟨hhost, (List.cons.inj (List.append_cancel_left h)).2⟩
  · rintro ⟨h, h'⟩
    rw [h, h']

/-- Where nothing is left to cut, a lower-case text is its own id, and nowhere else. -/
theorem normaliseGitUrl_lower_iff (lower : Lowercase) (t : List Char) (hcolon : ':' ∉ t) :
    normaliseGitUrl lower (lower.run t) = lower.run t ↔
      '@' ∉ t ∧ ¬['.', 'g', 'i', 't'] <:+ lower.run t := by
  have hsame : ∀ c ∈ ['/', ':', '@'], (c ∈ lower.run t ↔ c ∈ t) := fun c hc => by
    rw [← List.count_pos_iff, lower.sign t c hc, List.count_pos_iff]
  have hcolon' : ':' ∉ lower.run t := fun h => hcolon ((hsame ':' (by decide)).1 h)
  have hat := hsame '@' (by decide)
  rw [normaliseGitUrl, behindFirst_none hcolon', Option.getD_none]
  by_cases hpath : '@' ∈ t
  · refine ⟨fun h => ?_, fun h => absurd hpath h.1⟩
    obtain ⟨before, back, hsplit, hbefore⟩ := List.eq_append_cons_of_mem (hat.2 hpath)
    have hback : ':' ∉ back := fun h =>
      hcolon' (hsplit ▸ List.mem_append_right _ (List.mem_cons_of_mem _ h))
    -- What is left is shorter.
    obtain ⟨g, hg⟩ := exists_stripGit back
    have hinfix : stripGit back <:+: lower.run t := by
      refine ⟨before ++ ['@'], g, ?_⟩
      rw [hsplit, List.append_assoc, List.append_assoc, ← hg, List.singleton_append]
    rw [hsplit, behindFirst_char hbefore, Option.getD_some, colonToSlash_self hback,
      lower.infix_fixed t _ hinfix] at h
    have hlength := congrArg List.length h
    have hle := congrArg List.length hg
    rw [List.length_append, List.length_cons] at hlength
    rw [List.length_append] at hle
    omega
  · rw [behindFirst_none fun h => hpath (hat.1 h), Option.getD_none, colonToSlash_self hcolon']
    by_cases hsuffix : ['.', 'g', 'i', 't'] <:+ lower.run t
    · refine ⟨fun h => ?_, fun h => absurd hsuffix h.2⟩
      obtain ⟨s, hs⟩ := hsuffix
      have hinfix : s <:+: lower.run t := ⟨[], ['.', 'g', 'i', 't'], by rw [← hs]; rfl⟩
      rw [← hs, stripGit_append, lower.infix_fixed t s hinfix] at h
      have hlength := congrArg List.length h
      rw [List.length_append] at hlength
      exact absurd hlength (by simp)
    · rw [stripGit_self hsuffix, lower.infix_fixed t _ (List.infix_refl _)]
      exact ⟨fun _ => ⟨hpath, hsuffix⟩, fun _ => rfl⟩

/-- The part of an id in front of the path ends with a slash, and only the path can have an `@`. -/
theorem front_cases (r : RepoSpelling) : ':' ∉ r.front ∧ '@' ∉ r.front ∧
    (r.front = [] ∨ ∃ t, r.front = t ++ ['/']) := by
  unfold RepoSpelling.front
  split
  · refine ⟨?_, ?_, .inr ⟨r.host ++ r.port.elim [] ('/' :: ·), by rw [List.append_assoc]⟩⟩
    all_goals
      rcases hp : r.port with _ | p
      · simp [r.host_unsigned.2.1, r.host_unsigned.2.2]
      · have hport := r.port_unsigned p hp
        simp [r.host_unsigned.2.1, r.host_unsigned.2.2, hport.2.1, hport.2.2]
  · exact ⟨List.not_mem_nil, List.not_mem_nil, .inl rfl⟩

/-- The id of an id is itself exactly if what is read of the path has no `@` and does not end in
    `.git` in lower case. -/
theorem normaliseGitUrl_idem_iff (lower : Lowercase) (r : RepoSpelling) :
    normaliseGitUrl lower (normaliseGitUrl lower r.text) = normaliseGitUrl lower r.text ↔
      '@' ∉ r.pathRead ∧ ¬['.', 'g', 'i', 't'] <:+ lower.run r.pathRead := by
  obtain ⟨hcolon, hat, hfront⟩ := front_cases r
  have hread : ':' ∉ r.pathRead := by
    unfold RepoSpelling.pathRead
    split
    · exact r.path_colon
    · by_cases hmem : '@' ∈ r.path
      · obtain ⟨before, back, hsplit, hbefore⟩ := List.eq_append_cons_of_mem hmem
        rw [hsplit, behindFirst_char hbefore, Option.getD_some]
        exact fun h => r.path_colon
          (hsplit ▸ List.mem_append_right _ (List.mem_cons_of_mem _ h))
      · rw [behindFirst_none hmem, Option.getD_none]
        exact r.path_colon
  have hgit : ['.', 'g', 'i', 't'] <:+ lower.run (r.front ++ r.pathRead) ↔
      ['.', 'g', 'i', 't'] <:+ lower.run r.pathRead := by
    rcases hfront with hnil | ⟨t, ht⟩
    · rw [hnil, List.nil_append]
    · rw [ht, List.append_assoc, List.singleton_append, lower.slash, git_suffix_iff]
  have hmem : ':' ∉ r.front ++ r.pathRead := by
    rw [List.mem_append, not_or]
    exact ⟨hcolon, hread⟩
  rw [normaliseGitUrl_text, normaliseGitUrl_lower_iff lower _ hmem, hgit, List.mem_append, not_or,
    and_iff_right hat]

end Ids

section Ascii

theorem toLower_eq_sign_iff {c d : Char} (hc : c ∈ ['/', ':', '@']) : d.toLower = c ↔ d = c := by
  have hnot : c.isLower = false ∧ c.toLower = c := by
    simp only [List.mem_cons, List.not_mem_nil, or_false] at hc
    rcases hc with rfl | rfl | rfl
    all_goals decide
  constructor
  · intro h
    by_cases hup : d.isUpper = true
    · have hlower : d.toLower.isLower = true := by
        rw [Char.isLower_toLower_eq_isAlpha, Char.isAlpha, hup, Bool.true_or]
      rw [h, hnot.1] at hlower
      cases hlower
    · rwa [Char.toLower_eq_of_not_isUpper hup] at h
  · rintro rfl
    exact hnot.2

/-- Lower-casing of texts in ASCII. -/
def asciiLowercase : Lowercase where
  run := List.map Char.toLower
  slash s t := by rw [List.map_append, List.map_cons]; rfl
  sign s c hc := by
    induction s with
    | nil => rfl
    | cons d s ih =>
      rw [List.map_cons, List.count_cons, List.count_cons, ih]
      simp only [beq_iff_eq, toLower_eq_sign_iff hc]
  infix_fixed s t h := by
    have hfixed : ∀ c ∈ t, c.toLower = c := fun c hc => by
      obtain ⟨d, -, rfl⟩ := List.mem_map.1 (h.subset hc)
      exact Char.toLower_toLower_eq_toLower d
    exact (List.map_congr_left hfixed).trans (List.map_id t)

example : normaliseGitUrl asciiLowercase "git@GitHub.com:owner/repo.git".toList =
    "github.com/owner/repo".toList := by decide

end Ascii

end Spelunk
