import SparqlTokens.Proofs.Sparql.Values

/-! Prefixed names. A prefix has no colon, so a name is split at its first one just where the rules
put the prefix next to the local name, whatever colons, dots and escapes follow. The local name is
read by units, of which only the escapes lose a character. -/
namespace SparqlTokens

namespace Value

theorem splitAtColon?_append {p : List Char} (hp : ':' ∉ p) (l : List Char) :
    splitAtColon? (p ++ ':' :: l) = some (p, l) := by
  have hall : ∀ c ∈ p, decide (c ≠ ':') = true := by
    intro c hc
    apply decide_eq_true
    rintro rfl
    exact hp hc
  rw [splitAtColon?, List.dropWhile_append_of_pos hall, List.takeWhile_append_of_pos hall]
  simp

theorem colon_split {p q l m : List Char} (hp : ':' ∉ p) (hq : ':' ∉ q)
    (h : p ++ ':' :: l = q ++ ':' :: m) : p = q ∧ l = m := by
  have hsplit := congrArg splitAtColon? h
  rw [splitAtColon?_append hp, splitAtColon?_append hq] at hsplit
  exact Prod.mk.inj (Option.some.inj hsplit)

end Value

namespace Escape

theorem unescapeLocal_char {c : Char} (hc : c ≠ '\\') (r : List Char) :
    unescapeLocal (c :: r) = c :: unescapeLocal r := by
  rw [unescapeLocal]
  · exact fun h _ => hc h
  · exact fun d s h _ => hc h

theorem unescapeLocal_length (s : List Char) : (unescapeLocal s).length ≤ s.length := by
  fun_induction unescapeLocal s with
  | case1 => exact le_rfl
  | case2 => exact Nat.zero_le _
  | case3 c r ih =>
    simp only [List.length_cons]
    omega
  | case4 c r _ _ ih =>
    simp only [List.length_cons]
    omega

theorem unescapeLocal_eq_iff {s : List Char} : unescapeLocal s = s ↔ '\\' ∉ s := by
  constructor
  · intro h hback
    have hshorter : (unescapeLocal s).length < s.length := by
      clear h
      fun_induction unescapeLocal s with
      | case1 => cases hback
      | case2 => exact Nat.zero_lt_one
      | case3 c r _ =>
        have hle := unescapeLocal_length r
        simp only [List.length_cons]
        omega
      | case4 c r hlone hescape ih =>
        rcases List.mem_cons.mp hback with rfl | hr
        · cases r with
          | nil => exact absurd rfl (hlone rfl)
          | cons d r => exact absurd rfl (hescape d r rfl)
        · have hlt := ih hr
          simp only [List.length_cons]
          omega
    rw [h] at hshorter
    exact lt_irrefl _ hshorter
  · intro h
    induction s with
    | nil => rfl
    | cons c r ih =>
      obtain ⟨hc, hr⟩ := not_or.mp (mt List.mem_cons.mpr h)
      rw [unescapeLocal_char (Ne.symm hc), ih hr]

end Escape

namespace Sparql

open Escape Form Scan Terminal Value

attribute [local irreducible] table Terminal.rule

inductive LocalUnit where
  | plain (c : Char)
  /-- A percent sign and two hexadecimal digits, which stay as they are. -/
  | percent (a b : Char)
  /-- An escape, by the character behind the backslash. -/
  | escaped (c : Char)
  deriving DecidableEq

namespace LocalUnit

def text : LocalUnit → List Char
  | plain c => [c]
  | percent a b => ['%', a, b]
  | escaped c => ['\\', c]

/-- The characters that a unit stands for. -/
def meaning : LocalUnit → List Char
  | plain c | escaped c => [c]
  | percent a b => ['%', a, b]

/-- A unit as the rules describe it. -/
def Valid : LocalUnit → Prop
  | plain c => [c] ∈ pnChars.words ∨ c = '.' ∨ c = ':'
  | percent a b => ['%', a, b] ∈ Terminal.percent.words
  | escaped c => ['\\', c] ∈ pnLocalEsc.words

end LocalUnit

/-! The rules -/

theorem word_lacks {T : Terminal} {c : Char} (h : T.form.alphabet.contains c = false)
    {w : List Char} (hw : w ∈ T.words) : c ∉ w := by
  intro hc
  have hmem : T.form.alphabet.contains c = true :=
    Expression.mem_alphabet (form_regular T).wellFormed hw hc
  rw [h] at hmem
  cases hmem

theorem mem_namePrefix {p : List Char} :
    p ∈ namePrefix.language ↔ p = [] ∨ p ∈ pnPrefix.words :=
  Expression.mem_optional

theorem mem_pnameLn {w : List Char} : w ∈ pnameLn.words ↔
    ∃ p l, w = p ++ ':' :: l ∧ (p = [] ∨ p ∈ pnPrefix.words) ∧ l ∈ pnLocal.words := by
  constructor
  · intro h
    obtain ⟨p, hp, v, hv, rfl⟩ := Language.mem_mul.mp h
    obtain ⟨l, hl, rfl⟩ := mem_led hv
    exact ⟨p, l, rfl, mem_namePrefix.mp hp, hl⟩
  · intro hparts
    obtain ⟨p, l, rfl, hp, hl⟩ := hparts
    have hrest : ':' :: l ∈ (row [char ':', localStart, localTail]).language :=
      Language.append_mem_mul (a := [':']) rfl hl
    exact Language.append_mem_mul (mem_namePrefix.mpr hp) hrest

theorem mem_pnameNs {w : List Char} : w ∈ pnameNs.words ↔
    ∃ p, w = p ++ [':'] ∧ (p = [] ∨ p ∈ pnPrefix.words) := by
  constructor
  · intro h
    obtain ⟨p, hp, v, hv, rfl⟩ := Language.mem_mul.mp h
    rw [show v = [':'] from hv]
    exact ⟨p, rfl, mem_namePrefix.mp hp⟩
  · intro hparts
    obtain ⟨p, rfl, hp⟩ := hparts
    exact Language.append_mem_mul (mem_namePrefix.mpr hp) rfl

theorem prefix_no_colon {p : List Char} (hp : p = [] ∨ p ∈ pnPrefix.words) : ':' ∉ p := by
  rcases hp with rfl | hp
  · exact List.not_mem_nil
  · exact word_lacks (by decide) hp

theorem pnameLn_iff {p l : List Char} (hp : ':' ∉ p) : p ++ ':' :: l ∈ pnameLn.words ↔
    (p = [] ∨ p ∈ pnPrefix.words) ∧ l ∈ pnLocal.words := by
  rw [mem_pnameLn]
  constructor
  · intro hparts
    obtain ⟨q, m, heq, hq, hm⟩ := hparts
    obtain ⟨rfl, rfl⟩ := colon_split hp (prefix_no_colon hq) heq
    exact ⟨hq, hm⟩
  · intro hparts
    obtain ⟨hp', hl⟩ := hparts
    exact ⟨p, l, rfl, hp', hl⟩

/-! Units of local names -/

def localParts : List Expression := nameChars ++ [char '.', char ':', percent, localEscape]

theorem part_unit {e : Expression} (he : e ∈ localParts) {w : List Char} (hw : w ∈ e.language) :
    ∃ u : LocalUnit, u.Valid ∧ w = u.text := by
  rcases List.mem_append.mp he with hname | hother
  · have hword : w ∈ pnChars.words := Expression.mem_ofBranches.mpr ⟨e, hname, hw⟩
    obtain ⟨c, _, rfl⟩ := mem_pnChars.mp hword
    exact ⟨.plain c, Or.inl hword, rfl⟩
  · simp only [List.mem_cons, List.not_mem_nil, or_false] at hother
    rcases hother with rfl | rfl | rfl | rfl
    · exact ⟨.plain '.', Or.inr (Or.inl rfl), hw⟩
    · exact ⟨.plain ':', Or.inr (Or.inr rfl), hw⟩
    · obtain ⟨v, hv, hw'⟩ := mem_led hw
      obtain ⟨x, ⟨a, _, rfl⟩, y, ⟨b, _, rfl⟩, rfl⟩ := Language.mem_mul.mp hv
      subst hw'
      exact ⟨.percent a b, hw, rfl⟩
    · obtain ⟨v, ⟨c, _, rfl⟩, hw'⟩ := mem_led hw
      subst hw'
      exact ⟨.escaped c, hw, rfl⟩

def IsLocal (w : List Char) : Prop :=
  ∃ us : List LocalUnit, (∀ u ∈ us, u.Valid) ∧ w = us.flatMap LocalUnit.text

theorem isLocal_nil : IsLocal [] := ⟨[], List.forall_mem_nil _, rfl⟩

theorem isLocal_append {v w : List Char} (hv : IsLocal v) (hw : IsLocal w) : IsLocal (v ++ w) := by
  obtain ⟨us, hus, rfl⟩ := hv
  obtain ⟨vs, hvs, rfl⟩ := hw
  exact ⟨us ++ vs, List.forall_mem_append.mpr ⟨hus, hvs⟩, List.flatMap_append.symm⟩

theorem isLocal_oneOf {es : List Expression} (hes : es ⊆ localParts) {w : List Char}
    (hw : w ∈ (oneOf es).language) : IsLocal w := by
  obtain ⟨e, he, hw⟩ := Expression.mem_ofBranches.mp hw
  obtain ⟨u, hu, rfl⟩ := part_unit (hes he) hw
  refine ⟨[u], List.forall_mem_singleton.mpr hu, ?_⟩
  rw [List.flatMap_singleton]

theorem isLocal_many {es : List Expression} (hes : es ⊆ localParts) {w : List Char}
    (hw : w ∈ (many (oneOf es)).language) : IsLocal w := by
  rw [many, Expression.language_many] at hw
  obtain ⟨pieces, rfl, hp⟩ := Language.mem_kstar.mp hw
  clear hw
  induction pieces with
  | nil => exact isLocal_nil
  | cons v pieces ih =>
    obtain ⟨hv, hrest⟩ := List.forall_mem_cons.mp hp
    exact isLocal_append (isLocal_oneOf hes hv) (ih hrest)

theorem isLocal_dotted {inner last : List Expression} (hinner : inner ⊆ localParts)
    (hlast : last ⊆ localParts) {w : List Char} (hw : w ∈ (dotted inner last).language) :
    IsLocal w := by
  rcases Expression.mem_optional.mp hw with rfl | hw
  · exact isLocal_nil
  · obtain ⟨u, hu, v, hv, rfl⟩ := Language.mem_mul.mp hw
    exact isLocal_append (isLocal_many hinner hu) (isLocal_oneOf hlast hv)

theorem isLocal_word {l : List Char} (hl : l ∈ pnLocal.words) : IsLocal l := by
  obtain ⟨u, hu, v, hv, rfl⟩ := Language.mem_mul.mp hl
  exact isLocal_append (isLocal_oneOf (by decide) hu)
    (isLocal_dotted (by decide) (by decide) hv)

/-! What a local name stands for -/

theorem unescape_unit {u : LocalUnit} (hu : u.Valid) (r : List Char) :
    unescapeLocal (u.text ++ r) = u.meaning ++ unescapeLocal r := by
  cases u with
  | plain c =>
    have hc : c ≠ '\\' := by
      rcases hu with hc | rfl | rfl
      · have hlacks := word_lacks (c := '\\') (by decide) hc
        exact fun h => hlacks (h ▸ List.mem_cons_self)
      · decide
      · decide
    exact unescapeLocal_char hc r
  | percent a b =>
    have hlacks := word_lacks (c := '\\') (by decide) hu
    simp only [List.mem_cons, List.not_mem_nil, or_false, not_or] at hlacks
    obtain ⟨hsign, ha, hb⟩ := hlacks
    have htext : (LocalUnit.percent a b).text ++ r = '%' :: a :: b :: r := rfl
    rw [htext, unescapeLocal_char (Ne.symm hsign), unescapeLocal_char (Ne.symm ha),
      unescapeLocal_char (Ne.symm hb)]
    rfl
  | escaped c =>
    have htext : (LocalUnit.escaped c).text ++ r = '\\' :: c :: r := rfl
    rw [htext, unescapeLocal]
    rfl

theorem unescape_local_units {us : List LocalUnit} (hus : ∀ u ∈ us, u.Valid) :
    unescapeLocal (us.flatMap LocalUnit.text) = us.flatMap LocalUnit.meaning := by
  induction us with
  | nil => rfl
  | cons u us ih =>
    obtain ⟨hu, hrest⟩ := List.forall_mem_cons.mp hus
    rw [List.flatMap_cons, List.flatMap_cons, unescape_unit hu, ih hrest]

theorem meaning_nil_iff {us : List LocalUnit} : us.flatMap LocalUnit.meaning = [] ↔ us = [] := by
  constructor
  · intro h
    cases us with
    | nil => rfl
    | cons u us =>
      rw [List.flatMap_cons] at h
      have hu := (List.append_eq_nil_iff.mp h).1
      cases u <;> cases hu
  · rintro rfl
    rfl

theorem name_parts {T : Terminal} (hT : T ∈ prefixedNames) {w : List Char} (hw : w ∈ T.words) :
    ∃ (p : List Char) (us : List LocalUnit), ':' ∉ p ∧ (∀ u ∈ us, u.Valid) ∧
      w = p ++ ':' :: us.flatMap LocalUnit.text ∧ (us = [] ↔ T = pnameNs) := by
  simp only [prefixedNames, List.mem_cons, List.not_mem_nil, or_false] at hT
  rcases hT with rfl | rfl
  · obtain ⟨p, l, rfl, hp, hl⟩ := mem_pnameLn.mp hw
    obtain ⟨us, hus, rfl⟩ := isLocal_word hl
    refine ⟨p, us, prefix_no_colon hp, hus, rfl, ?_⟩
    refine iff_of_false ?_ (by decide)
    rintro rfl
    exact absurd (Expression.mayBeEmpty_of_nil_mem hl) (by decide)
  · obtain ⟨p, rfl, hp⟩ := mem_pnameNs.mp hw
    exact ⟨p, [], prefix_no_colon hp, List.forall_mem_nil _, rfl, iff_of_true rfl rfl⟩

theorem emitted_name {settings : Settings} {text : List Char} {t : Token}
    (h : Emits (ofText table settings text) (.token t))
    (hrule : t.rule = pnameLn.name ∨ t.rule = pnameNs.name) :
    ∃ T ∈ prefixedNames, t.rule = T.name ∧ t.lexeme.toList ∈ T.words ∧
      (t.kind = .pnameLn ∨ t.kind = .pnameNs) := by
  obtain ⟨ahead, hcut⟩ := emitted_cut h
  obtain ⟨T, _, _, hname, hw⟩ := cut_lexeme hcut
  have hname' : T.name = t.rule := hname.symm
  rcases hrule with hrule | hrule
  · refine ⟨T, ?_, hname, hw, Or.inl ?_⟩
    · rw [name_injective (hname'.trans hrule)]
      decide
    · exact Table.cut_kind_eq hcut (congrArg (Kind.ofRule? · _) hrule)
  · refine ⟨T, ?_, hname, hw, Or.inr ?_⟩
    · rw [name_injective (hname'.trans hrule)]
      decide
    · exact Table.cut_kind_eq hcut (congrArg (Kind.ofRule? · _) hrule)

/-- A text is a prefixed name with a local part if and only if what stands before its first colon is
nothing or a prefix, and what stands behind it a local name. The value of a prefixed name that is
read from a text has the prefix as it stands and the local name by its units, an escape as the
character behind its backslash. The local name is as it was written if and only if no backslash is
in it, and it is empty only under the rule for a prefix alone. -/
theorem prefixed_names_split :
    (∀ p l : List Char, ':' ∉ p → (table.check? (p ++ ':' :: l) "PNAME_LN" = some true ↔
      (p = [] ∨ table.check? p "PN_PREFIX" = some true) ∧
        table.check? l "PN_LOCAL" = some true)) ∧
    ∀ settings text t, Emits (ofText table settings text) (.token t) →
      t.rule = "PNAME_LN" ∨ t.rule = "PNAME_NS" →
      ∃ (p written : List Char) (us : List LocalUnit), ':' ∉ p ∧
        t.lexeme.toList = p ++ ':' :: written ∧ (∀ u ∈ us, u.Valid) ∧
        written = us.flatMap LocalUnit.text ∧
        t.value? = some (.prefixedName (String.ofList p)
          (String.ofList (us.flatMap LocalUnit.meaning))) ∧
        (us.flatMap LocalUnit.meaning = written ↔ '\\' ∉ written) ∧
        (us.flatMap LocalUnit.meaning = [] ↔ t.rule = "PNAME_NS") := by
  refine ⟨?_, ?_⟩
  · intro p l hp
    have hname := check?_iff pnameLn (p ++ ':' :: l)
    have hstem := check?_iff pnPrefix p
    have hlocal := check?_iff pnLocal l
    exact hname.trans ((pnameLn_iff hp).trans (and_congr (or_congr Iff.rfl hstem.symm)
      hlocal.symm))
  · intro settings text t h hrule
    obtain ⟨T, hT, hname, hw, hkind⟩ := emitted_name h hrule
    obtain ⟨p, us, hp, hus, hlexeme, hempty⟩ := name_parts hT hw
    refine ⟨p, _, us, hp, hlexeme, hus, rfl, ?_, ?_, ?_⟩
    · rw [Token.value?, ← unescape_local_units hus]
      rcases hkind with hkind | hkind
      · simp only [hkind, decode?, hlexeme, splitAtColon?_append hp, Option.map_some]
      · simp only [hkind, decode?, hlexeme, splitAtColon?_append hp, Option.map_some]
    · rw [← unescape_local_units hus]
      exact unescapeLocal_eq_iff
    · rw [meaning_nil_iff, hempty, hname]
      exact (name_injective.eq_iff' rfl).symm

/-- An escaped hyphen behind an empty prefix. -/
theorem escaped_hyphen_in_name : ∃ t s,
    Emits (ofText table (everything true 24) [':', '\\', '-']) (.token t) ∧
      t.value? = some (.prefixedName "" s) ∧ s ≠ "\\-" := by
  have hescape : ['\\', '-'] ∈ localEscape.language :=
    Language.append_mem_mul (a := ['\\']) rfl ⟨'-', mem_among.mpr (by decide), rfl⟩
  have hstart : ['\\', '-'] ∈ localStart.language :=
    Expression.mem_ofBranches.mpr ⟨localEscape, by decide, hescape⟩
  have hlocal : ['\\', '-'] ∈ pnLocal.words :=
    Language.append_mem_mul hstart (Expression.mem_optional.mpr (Or.inl rfl))
  have hname := (prefixed_names_split.1 [] ['\\', '-'] List.not_mem_nil).mpr
    ⟨Or.inl rfl, (check?_iff pnLocal _).mpr hlocal⟩
  have hadmitted : pnameLn.Admitted (everything true 24) := admitted_everything
  obtain ⟨t, hitems, hrule, hlexeme, _⟩ :=
    read_word (by decide) hadmitted ((check?_iff pnameLn _).mp hname) nofun rfl rfl
  have hemits : Emits (ofText table (everything true 24) [':', '\\', '-']) (.token t) :=
    items_emitted (hitems ▸ List.mem_singleton_self _)
  obtain ⟨p, written, us, hp, hsplit, _, _, hvalue, hsame, _⟩ :=
    prefixed_names_split.2 _ _ t hemits (Or.inl hrule)
  obtain ⟨rfl, rfl⟩ := colon_split List.not_mem_nil hp (hlexeme.symm.trans hsplit)
  refine ⟨t, _, hemits, hvalue, ?_⟩
  intro hs
  have hwritten := congrArg String.toList hs
  rw [String.toList_ofList] at hwritten
  exact absurd (hsame.mp hwritten) (by decide)

end Sparql

end SparqlTokens
