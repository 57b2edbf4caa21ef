import SparqlTokens.Proofs.Sparql.Cutting
import SparqlTokens.Proofs.Sparql.Strings

/-! What tokens begin with. Outside quotes, the first character or the first two tell whether any
token can be cut. -/
namespace SparqlTokens.Sparql

open Form

attribute [local irreducible] table Terminal.rule

/-- The characters that are tokens by themselves, or begin one whatever follows. -/
def Stands (c : Char) : Prop :=
  c ∈ nameBase ∨ c = '_' ∨ c ∈ digits ∨ c ∈ [' ', '\t', '\r', '\n'] ∨ c = ':' ∨
    c ∈ ['\x7b', '\x7d', '(', ')', '[', ']', '.', ',', ';', '=', '<', '>', '+', '-', '*', '/', '!',
      '?', '|', '^']

/-- Whether a token that is no text in quotes can begin with `c` before `r`. -/
def Opens (settings : Settings) (c : Char) (r : List Char) : Prop :=
  Stands c ∨ (c = '#' ∧ settings.comments = true) ∨
    (c = '$' ∧ ∃ d s, r = d :: s ∧ (d ∈ nameBase ∨ d = '_' ∨ d ∈ digits)) ∨
    (c = '@' ∧ ∃ d s, r = d :: s ∧ d ∈ letters) ∨ (c = '&' ∧ ∃ s, r = '&' :: s)

namespace Terminal

def standing : CharSet :=
  nameStartSet.union (digits.union (blanks.union ((CharSet.single ':').union signs)))

theorem standing_spec : standing.Ascending ∧ ∀ c, c ∈ standing ↔
    c ∈ nameStartSet ∨ c ∈ digits ∨ c ∈ blanks ∨ c ∈ CharSet.single ':' ∨ c ∈ signs := by
  have hdigits : digits.Ascending := by decide
  have hblanks : blanks.Ascending := (among_spec _).1
  have hcolon := CharSet.single_ascending ':'
  have hsigns : signs.Ascending := (among_spec _).1
  have h₁ := CharSet.union_ascending hcolon hsigns
  have h₂ := CharSet.union_ascending hblanks h₁
  have h₃ := CharSet.union_ascending hdigits h₂
  refine ⟨CharSet.union_ascending nameStart_ascending h₃, fun c => ?_⟩
  rw [standing, CharSet.mem_union nameStart_ascending h₃, CharSet.mem_union hdigits h₂,
    CharSet.mem_union hblanks h₁, CharSet.mem_union hcolon hsigns]

theorem mem_standing {c : Char} : c ∈ standing ↔ Stands c := by
  rw [standing_spec.2, nameStartSet,
    CharSet.mem_union nameBase_ascending (CharSet.single_ascending '_'), CharSet.mem_single,
    CharSet.mem_single, blanks, mem_among, signs, mem_among, or_assoc]
  exact Iff.rfl

/-- The terminals whose first characters all stand by themselves. -/
def ordinary (T : Terminal) : Bool :=
  T ∉ [string1, string2, stringLong1, stringLong2, var2, langTag, comment, punct]

theorem ordinary_heads :
    (tokens.all fun T => !T.ordinary || T.form.heads.union standing == standing) = true := by
  decide

theorem ordinary_stands {T : Terminal} (hT : T ∈ tokens) (ho : T.ordinary = true) {c : Char}
    {w : List Char} (hw : c :: w ∈ T.words) : Stands c := by
  have hwf := (form_regular T).wellFormed
  have hhead : c ∈ T.form.heads := Expression.head_mem hwf hw
  have hcheck := List.all_eq_true.mp ordinary_heads T hT
  rw [ho, Bool.not_true, Bool.false_or] at hcheck
  have hsub : T.form.heads.union standing = standing := eq_of_beq hcheck
  rw [← mem_standing, ← hsub]
  exact (CharSet.mem_union (Expression.heads_ascending hwf) standing_spec.1).mpr (Or.inl hhead)

theorem mem_var2 {w : List Char} (h : w ∈ var2.words) :
    ∃ d s, w = '$' :: d :: s ∧ (d ∈ nameBase ∨ d = '_' ∨ d ∈ digits) := by
  obtain ⟨u, hu, v, hv, rfl⟩ := Language.mem_mul.mp h
  obtain ⟨x, hx, y, _, rfl⟩ := Language.mem_mul.mp hv
  rw [show u = ['$'] from hu]
  rcases hx with ⟨d, hd, rfl⟩ | hx | ⟨d, hd, rfl⟩
  · exact ⟨d, y, rfl, Or.inl hd⟩
  · rw [show x = ['_'] from hx]
    exact ⟨'_', y, rfl, Or.inr (Or.inl rfl)⟩
  · exact ⟨d, y, rfl, Or.inr (Or.inr hd)⟩

theorem var2_word {d : Char} (hd : d ∈ nameBase ∨ d = '_' ∨ d ∈ digits) :
    ['$', d] ∈ var2.words := by
  have hstart : [d] ∈ (oneOf (nameStarts ++ [Expression.set digits])).language := by
    rcases hd with hd | rfl | hd
    · exact Or.inl ⟨d, hd, rfl⟩
    · exact Or.inr (Or.inl rfl)
    · exact Or.inr (Or.inr ⟨d, hd, rfl⟩)
  exact Language.append_mem_mul (a := ['$']) rfl
    (Language.append_mem_mul hstart (nil_mem_many _))

theorem mem_langTag {w : List Char} (h : w ∈ langTag.words) :
    ∃ d s, w = '@' :: d :: s ∧ d ∈ letters := by
  obtain ⟨u, hu, v, hv, rfl⟩ := Language.mem_mul.mp h
  obtain ⟨x, hx, y, _, rfl⟩ := Language.mem_mul.mp hv
  rw [many1, Expression.language_many1] at hx
  obtain ⟨z, ⟨d, hd, rfl⟩, t, _, rfl⟩ := Language.mem_mul.mp hx
  rw [show u = ['@'] from hu]
  exact ⟨d, t ++ y, rfl, hd⟩

theorem langTag_word {d : Char} (hd : d ∈ letters) : ['@', d] ∈ langTag.words := by
  have hletter : [d] ∈ (many1 (.set letters)).language := mem_many1 ⟨d, hd, rfl⟩
  exact Language.append_mem_mul (a := ['@']) rfl
    (Language.append_mem_mul hletter (nil_mem_many _))

theorem comment_word : ['#'] ∈ comment.words :=
  Language.append_mem_mul (a := ['#']) rfl (nil_mem_many _)

theorem word_begins {T : Terminal} (hT : T ∈ tokens) {c : Char} {w : List Char}
    (hw : c :: w ∈ T.words) : Stands c ∨ (T = comment ∧ c = '#') ∨
      (c = '$' ∧ ∃ d s, w = d :: s ∧ (d ∈ nameBase ∨ d = '_' ∨ d ∈ digits)) ∨
      (c = '@' ∧ ∃ d s, w = d :: s ∧ d ∈ letters) ∨ (c = '&' ∧ w = ['&']) ∨
      T ∈ [string1, string2, stringLong1, stringLong2] := by
  by_cases ho : T.ordinary = true
  · exact Or.inl (ordinary_stands hT ho hw)
  · have hspecial : T ∈ [string1, string2, stringLong1, stringLong2, var2, langTag, comment,
        punct] := by
      rw [ordinary, decide_eq_true_iff] at ho
      exact of_not_not ho
    have hmem : T ∈ [string1, string2, stringLong1, stringLong2] ∨ T = var2 ∨ T = langTag ∨
        T = comment ∨ T = punct := by
      simpa [or_assoc] using hspecial
    rcases hmem with hs | rfl | rfl | rfl | rfl
    · exact Or.inr (Or.inr (Or.inr (Or.inr (Or.inr hs))))
    · obtain ⟨d, s, heq, hd⟩ := mem_var2 hw
      cases heq
      exact Or.inr (Or.inr (Or.inl ⟨rfl, d, s, rfl, hd⟩))
    · obtain ⟨d, s, heq, hd⟩ := mem_langTag hw
      cases heq
      exact Or.inr (Or.inr (Or.inr (Or.inl ⟨rfl, d, s, rfl, hd⟩)))
    · obtain ⟨v, heq⟩ := comment_head hw
      cases heq
      exact Or.inr (Or.inl ⟨rfl, rfl⟩)
    · have hsign : ∀ d, d ∈ signs → Stands d := by
        intro d hd
        exact Or.inr (Or.inr (Or.inr (Or.inr (Or.inr (mem_among.mp hd)))))
      rcases mem_punct.mp hw with hpair | ⟨d, hd, heq⟩
      · simp only [List.mem_cons, List.not_mem_nil, or_false] at hpair
        rcases hpair with h | h | h | h | h | h
        · cases h; exact Or.inl (hsign _ (mem_among.mpr (by decide)))
        · cases h; exact Or.inl (hsign _ (mem_among.mpr (by decide)))
        · cases h; exact Or.inr (Or.inr (Or.inr (Or.inr (Or.inl ⟨rfl, rfl⟩))))
        · cases h; exact Or.inl (hsign _ (mem_among.mpr (by decide)))
        · cases h; exact Or.inl (hsign _ (mem_among.mpr (by decide)))
        · cases h; exact Or.inl (hsign _ (mem_among.mpr (by decide)))
      · cases heq
        exact Or.inl (hsign _ hd)

theorem stands_word {c : Char} (h : Stands c) : ∃ T ∈ tokens, T ≠ comment ∧ [c] ∈ T.words := by
  have name : c ∈ nameBase ∨ c = '_' → ∃ T ∈ tokens, T ≠ comment ∧ [c] ∈ T.words := by
    intro hc
    have hstart : c ∈ nameStartSet :=
      (CharSet.mem_union nameBase_ascending (CharSet.single_ascending '_')).mpr
        (hc.imp_right CharSet.mem_single.mpr)
    exact ⟨ident, by decide, by decide, mem_ident.mpr ⟨c, [], rfl, hstart, fun d hd => by cases hd⟩⟩
  have one : ∀ {s : CharSet}, c ∈ s → [c] ∈ (many1 (.set s)).language :=
    fun hc => mem_many1 ⟨c, hc, rfl⟩
  rcases h with h | h | h | h | h | h
  · exact name (Or.inl h)
  · exact name (Or.inr h)
  · exact ⟨integer, by decide, by decide, one h⟩
  · exact ⟨whitespace, by decide, by decide, one (mem_among.mpr h)⟩
  · refine ⟨pnameNs, by decide, by decide, ?_⟩
    rw [h]
    exact Language.append_mem_mul (a := []) (Expression.mem_optional.mpr (Or.inl rfl)) rfl
  · exact ⟨punct, by decide, by decide, mem_punct.mpr (Or.inr ⟨c, mem_among.mpr h, rfl⟩)⟩

theorem quoted_word {T : Terminal} (hT : T ∈ [string1, string2, stringLong1, stringLong2])
    {c : Char} {w : List Char} (hw : c :: w ∈ T.words) : c = '"' ∨ c = '\'' := by
  simp only [List.mem_cons, List.not_mem_nil, or_false] at hT
  rcases hT with rfl | rfl | rfl | rfl
  · obtain ⟨body, _, heq⟩ := mem_short.mp hw
    exact Or.inr (List.cons.inj heq).1
  · obtain ⟨body, _, heq⟩ := mem_short.mp hw
    exact Or.inl (List.cons.inj heq).1
  · obtain ⟨body, _, heq⟩ := mem_long.mp hw
    exact Or.inr (List.cons.inj heq).1
  · obtain ⟨body, _, heq⟩ := mem_long.mp hw
    exact Or.inl (List.cons.inj heq).1

variable {settings : Settings} {c : Char} {r : List Char}

theorem opens_word (h : Opens settings c r) :
    ∃ T ∈ tokens, T.Admitted settings ∧ ∃ u, u ≠ [] ∧ u <+: c :: r ∧ u ∈ T.words := by
  rcases h with h | ⟨rfl, hs⟩ | ⟨rfl, d, s, rfl, hd⟩ | ⟨rfl, d, s, rfl, hd⟩ | ⟨rfl, s, rfl⟩
  · obtain ⟨T, hT, hne, hw⟩ := stands_word h
    exact ⟨T, hT, Or.inr hne, [c], by simp, ⟨r, rfl⟩, hw⟩
  · exact ⟨comment, by decide, Or.inl hs, ['#'], by simp, ⟨r, rfl⟩, comment_word⟩
  · exact ⟨var2, by decide, Or.inr (by decide), ['$', d], by simp, ⟨s, rfl⟩, var2_word hd⟩
  · exact ⟨langTag, by decide, Or.inr (by decide), ['@', d], by simp, ⟨s, rfl⟩, langTag_word hd⟩
  · exact ⟨punct, by decide, Or.inr (by decide), ['&', '&'], by simp, ⟨s, rfl⟩,
      mem_punct.mpr (Or.inl (by decide))⟩

theorem word_opens {T : Terminal} (hT : T ∈ tokens) (ha : T.Admitted settings) {w : List Char}
    (hw : c :: w ∈ T.words) (hr : w <+: r) : Opens settings c r ∨ c = '"' ∨ c = '\'' := by
  rcases word_begins hT hw with h | ⟨rfl, rfl⟩ | ⟨rfl, d, s, rfl, hd⟩ | ⟨rfl, d, s, rfl, hd⟩ |
    ⟨rfl, rfl⟩ | h
  · exact Or.inl (Or.inl h)
  · exact Or.inl (Or.inr (Or.inl ⟨rfl, ha.resolve_right fun hne => hne rfl⟩))
  · obtain ⟨t, rfl⟩ := hr
    exact Or.inl (Or.inr (Or.inr (Or.inl ⟨rfl, d, s ++ t, rfl, hd⟩)))
  · obtain ⟨t, rfl⟩ := hr
    exact Or.inl (Or.inr (Or.inr (Or.inr (Or.inl ⟨rfl, d, s ++ t, rfl, hd⟩))))
  · obtain ⟨t, rfl⟩ := hr
    exact Or.inl (Or.inr (Or.inr (Or.inr (Or.inr ⟨rfl, t, rfl⟩))))
  · exact Or.inr (quoted_word h hw)

theorem select?_cons {d : Candidate} (h : table.select? settings.admits (c :: r) = some d) :
    ∃ T ∈ tokens, T.Admitted settings ∧ d.rule = T.rule ∧
      ∃ w, d.lexeme = c :: w ∧ w <+: r ∧ c :: w ∈ T.words := by
  obtain ⟨T, hT, ha, hrule, hw⟩ := select?_word h
  obtain ⟨hne, hstart⟩ := Table.select?_cuts h
  obtain ⟨x, w, hxw⟩ := List.exists_cons_of_ne_nil hne
  rw [hxw] at hstart hw
  obtain ⟨rfl, hwr⟩ := List.cons_prefix_cons.mp hstart
  exact ⟨T, hT, ha, hrule, w, hxw, hwr, hw⟩

/-- Outside quotes, some rule is chosen if and only if a token can begin. -/
theorem select?_isSome_iff (hc : c ≠ '"') (hc' : c ≠ '\'') :
    (∃ d, table.select? settings.admits (c :: r) = some d) ↔ Opens settings c r := by
  constructor
  · rintro ⟨d, hd⟩
    obtain ⟨T, hT, ha, _, w, _, hwr, hw⟩ := select?_cons hd
    exact (word_opens hT ha hw hwr).resolve_right fun h => h.elim hc hc'
  · intro h
    obtain ⟨T, hT, ha, u, hne, hu, hw⟩ := opens_word h
    cases hs : table.select? settings.admits (c :: r) with
    | some d => exact ⟨d, rfl⟩
    | none => exact absurd (select?_nothing hs hT ha hu hw) hne

theorem select?_of_word (settings : Settings) {T : Terminal} (hT : T ∈ tokens) (hne : T ≠ comment)
    {u rest : List Char} (hu : u <+: rest) (hw : u ∈ T.words) (hnil : u ≠ []) :
    ∃ d, table.select? settings.admits rest = some d := by
  cases hs : table.select? settings.admits rest with
  | some d => exact ⟨d, rfl⟩
  | none => exact absurd (select?_nothing hs hT (Or.inr hne) hu hw) hnil

end Terminal

end SparqlTokens.Sparql
