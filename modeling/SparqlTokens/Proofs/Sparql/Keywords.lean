import SparqlTokens.Proofs.Sparql.SingleTokens

/-! Reserved words. Neither the search by halves nor what is sorted out before it loses a word of the
list or finds one that is not there, so a word is reserved if and only if its upper case is listed.
Every reserved word is one token by itself, and a bare word of a text is an identifier if and only
if it is not reserved. -/
namespace SparqlTokens

namespace Keyword

/-! The search by halves -/

section Search

variable {word middle : String} {ws below above : List String}

theorem find?_below (h : (below ++ middle :: above).Pairwise (· < ·)) (hlt : word < middle) :
    (below ++ middle :: above).find? (· = word) = below.find? (· = word) := by
  obtain ⟨_, hrest, _⟩ := List.pairwise_append.mp h
  have hnone : (middle :: above).find? (· = word) = none := by
    apply List.find?_eq_none.mpr
    intro w hw heq
    obtain rfl := of_decide_eq_true heq
    rcases List.mem_cons.mp hw with rfl | hw
    · exact String.lt_irrefl _ hlt
    · exact String.lt_asymm hlt ((List.pairwise_cons.mp hrest).1 _ hw)
  rw [List.find?_append, hnone, Option.or_none]

theorem find?_behind (h : (below ++ middle :: above).Pairwise (· < ·)) (hle : ¬ word < middle) :
    (below ++ middle :: above).find? (· = word) = (middle :: above).find? (· = word) := by
  obtain ⟨_, _, hbelow⟩ := List.pairwise_append.mp h
  have hnone : below.find? (· = word) = none := by
    apply List.find?_eq_none.mpr
    intro w hw heq
    obtain rfl := of_decide_eq_true heq
    exact hle (hbelow _ hw _ List.mem_cons_self)
  rw [List.find?_append, hnone, Option.none_or]

/-- By halves, an ascending list gives what it gives word by word. -/
theorem search?_ascending (h : ws.Pairwise (· < ·)) : search? word ws = ws.find? (· = word) := by
  fun_induction search? word ws with
  | case1 ws hdrop =>
    have hnil : ws = [] := by
      have hlength := congrArg List.length hdrop
      simp only [List.length_drop, List.length_nil] at hlength
      apply List.length_eq_zero_iff.mp
      omega
    rw [hnil, List.find?_nil]
  | case2 ws above hdrop =>
    rw [← List.take_append_drop (ws.length / 2) ws, hdrop] at h ⊢
    rw [find?_behind h (String.lt_irrefl _)]
    simp
  | case3 ws middle above hdrop hne hlt ih =>
    have hhalf := ih (h.sublist (List.take_sublist _ _))
    rw [← List.take_append_drop (ws.length / 2) ws, hdrop] at h
    rw [hhalf, ← find?_below h hlt, ← hdrop, List.take_append_drop]
  | case4 ws middle above hdrop hne hle ih =>
    rw [← List.take_append_drop (ws.length / 2) ws, hdrop] at h ⊢
    rw [find?_behind h hle, ih (List.pairwise_cons.mp (List.pairwise_append.mp h).2.1).2]
    simp [Ne.symm hne]

end Search

/-! What is sorted out before -/

theorem reserved_ascending : reserved.Pairwise (· < ·) := by
  decide +kernel

theorem reserved_plausible : ∀ k ∈ reserved, isPlausible k = true := by
  decide +kernel

/-- Upper case changes the lower-case letters of ASCII and nothing else. -/
theorem toUpper_cases (c : Char) : c.toUpper = c ∨
    'a' ≤ c ∧ c ≤ 'z' ∧ c.toUpper.toNat + 32 = c.toNat ∧ c.toNat < 128 := by
  by_cases h : 'a' ≤ c ∧ c ≤ 'z'
  · right
    have hval : 'a'.val ≤ c.val ∧ c.val ≤ 'z'.val := h
    have hl : 97 ≤ c.toNat := UInt32.le_iff_toNat_le.mp hval.1
    have hu : c.toNat ≤ 122 := UInt32.le_iff_toNat_le.mp hval.2
    have hshift : ('A'.val - 'a'.val).toNat = 2 ^ 32 - 32 := by decide
    obtain ⟨hvalid, hupper⟩ : ∃ h, c.toUpper = ⟨c.val + ('A'.val - 'a'.val), h⟩ :=
      ⟨_, dif_pos hval⟩
    have hnat : c.toUpper.toNat = (c.toNat + (2 ^ 32 - 32)) % 2 ^ 32 := by
      rw [hupper, ← hshift]
      exact UInt32.toNat_add _ _
    refine ⟨h.1, h.2, ?_, ?_⟩
    · omega
    · omega
  · left
    exact dif_neg h

theorem toUpper_ascii (c : Char) : c.toUpper.toNat < 128 ↔ c.toNat < 128 := by
  rcases toUpper_cases c with h | ⟨_, _, h, hlt⟩
  · rw [h]
  · omega

theorem utf8Size_ascii {c : Char} (h : c.toNat < 128) : c.utf8Size = 1 := by
  apply Char.utf8Size_eq_one_iff.mpr
  apply UInt32.le_iff_toNat_le.mpr
  exact Nat.le_of_lt_succ h

theorem utf8Size_toUpper (c : Char) : c.toUpper.utf8Size = c.utf8Size := by
  rcases toUpper_cases c with h | ⟨_, _, _, hlt⟩
  · rw [h]
  · rw [utf8Size_ascii ((toUpper_ascii c).mpr hlt), utf8Size_ascii hlt]

theorem byteSize_upper (cs : List Char) :
    Text.byteSize (cs.map Char.toUpper) = Text.byteSize cs := by
  induction cs with
  | nil => rfl
  | cons c cs ih => rw [List.map_cons, Text.byteSize_cons, Text.byteSize_cons, utf8Size_toUpper, ih]

theorem isPlausible_upper (word : String) : isPlausible (upper word) = isPlausible word := by
  have hall : (word.toList.map Char.toUpper).all (fun c => c.toNat < 128) =
      word.toList.all fun c => c.toNat < 128 := by
    rw [List.all_map]
    congr 1
    funext c
    exact decide_eq_decide.mpr (toUpper_ascii c)
  rw [isPlausible, isPlausible, upper, String.toList_ofList, byteSize_upper, hall]

/-- The list is searched as a whole: a word that is not plausible is not in it in any case. -/
theorem canonical?_eq_find? (word : String) : canonical? word =
    if word = "a" then some "a" else reserved.find? (· = upper word) := by
  rw [canonical?]
  by_cases hplausible : isPlausible word = true
  · rw [if_pos hplausible, search?_ascending reserved_ascending]
  · have hnone : reserved.find? (· = upper word) = none := by
      apply List.find?_eq_none.mpr
      intro k hk heq
      apply hplausible
      rw [← isPlausible_upper, ← of_decide_eq_true heq]
      exact reserved_plausible k hk
    rw [if_neg hplausible, hnone]

theorem canonical?_eq_some_iff {word k : String} : canonical? word = some k ↔
    word = "a" ∧ k = "a" ∨ k ∈ reserved ∧ upper word = k := by
  rw [canonical?_eq_find?]
  by_cases ha : word = "a"
  · have hnot : upper word ∉ reserved := by
      rw [ha]
      decide
    rw [if_pos ha, Option.some.injEq]
    constructor
    · intro hk
      exact Or.inl ⟨ha, hk.symm⟩
    · rintro (⟨_, hk⟩ | ⟨hk, rfl⟩)
      · exact hk.symm
      · exact absurd hk hnot
  · rw [if_neg ha]
    constructor
    · intro hfound
      have heq := List.find?_some hfound
      exact Or.inr ⟨List.mem_of_find?_eq_some hfound, (of_decide_eq_true heq).symm⟩
    · rintro (⟨h, _⟩ | ⟨hk, rfl⟩)
      · exact absurd h ha
      · have hsome : (reserved.find? (· = upper word)).isSome = true :=
          List.find?_isSome.mpr ⟨upper word, hk, decide_eq_true rfl⟩
        obtain ⟨w, hw⟩ := Option.isSome_iff_exists.mp hsome
        have heq := List.find?_some hw
        rw [hw, of_decide_eq_true heq]

end Keyword

namespace Sparql

open Keyword Scan Terminal

attribute [local irreducible] table Terminal.rule

/-! Reserved words as tokens -/

theorem ident_of_upper {w : List Char} (h : w.map Char.toUpper ∈ ident.words) :
    w ∈ ident.words := by
  have hlower : ∀ c : Char, c.toUpper = c ∨ c ∈ Form.nameBase := by
    intro c
    rcases toUpper_cases c with hc | ⟨hl, hu, _⟩
    · exact Or.inl hc
    · right
      apply letter_nameBase
      exact ((Form.within_spec (by decide)).2 c).mpr ⟨('a', 'z'), by decide, hl, hu⟩
  obtain ⟨c, v, hw, hc, hv⟩ := mem_ident.mp h
  obtain ⟨d, r, rfl, rfl, rfl⟩ := List.map_eq_cons_iff.mp hw
  refine mem_ident.mpr ⟨d, r, rfl, ?_, ?_⟩
  · rcases hlower d with hd | hd
    · rwa [hd] at hc
    · exact (CharSet.mem_union nameBase_ascending (CharSet.single_ascending '_')).mpr (Or.inl hd)
  · intro e he
    rcases hlower e with hd | hd
    · rw [← hd]
      exact hv _ (List.mem_map_of_mem he)
    · exact nameChar_base hd

theorem reserved_names : ∀ k ∈ reserved, ∃ c v, k.toList = c :: v ∧
    nameStartSet.contains c = true ∧ v.all nameCharSet.contains = true := by
  have hall : (reserved.all fun k => k.toList.head?.any nameStartSet.contains &&
      k.toList.tail.all nameCharSet.contains) = true := by
    decide +kernel
  intro k hk
  obtain ⟨hhead, htail⟩ := Bool.and_eq_true_iff.mp (List.all_eq_true.mp hall k hk)
  cases hlist : k.toList with
  | nil =>
    rw [hlist] at hhead
    cases hhead
  | cons c v =>
    rw [hlist] at hhead htail
    exact ⟨c, v, rfl, hhead, htail⟩

variable {word k : String}

theorem reserved_word (h : canonical? word = some k) :
    word.toList ∈ ident.words ∧ word.toList ∉ boolean.words := by
  rcases canonical?_eq_some_iff.mp h with ⟨rfl, _⟩ | ⟨hk, rfl⟩
  · have hname : ['a'] ∈ ident.words := letters_ident (by decide) rfl
    refine ⟨hname, ?_⟩
    intro hw
    exact absurd (mem_boolean.mp hw) (by decide)
  · constructor
    · obtain ⟨c, v, hlist, hc, hv⟩ := reserved_names _ hk
      rw [upper, String.toList_ofList] at hlist
      apply ident_of_upper
      rw [hlist]
      exact ident_word hc hv
    · intro hw
      rcases mem_boolean.mp hw with hw | hw
      · rw [upper, hw] at hk
        exact absurd hk (by decide)
      · rw [upper, hw] at hk
        exact absurd hk (by decide)

def bareKind (word : String) : Kind := if isKeyword word then .keyword else .identifier

/-- By itself, a name that is no truth value is one token, whatever the settings. -/
theorem name_item (hname : word.toList ∈ ident.words) (hnot : word.toList ∉ boolean.words)
    (settings : Settings) : ∃ t, table.items settings word.toList = [.token t] ∧
      t.kind = bareKind word ∧ t.rule = "IDENT" ∧ t.lexeme = word := by
  have hkind : Kind.ofRule? ident.name (String.ofList word.toList) = some (bareKind word) := by
    rw [String.ofList_toList]
    rfl
  have hshown : (bareKind word).isTrivia = false := by
    unfold bareKind
    split <;> rfl
  obtain ⟨t, ht, hrule, hlexeme, hsame⟩ :=
    read_word (by decide) ident_admitted hname (fun _ => hnot) hkind hshown
  exact ⟨t, ht, hsame, hrule, String.toList_inj.mp hlexeme⟩

theorem emitted_name_kind {settings : Settings} {text : List Char} {t : Token}
    (h : Emits (ofText table settings text) (.token t)) (hrule : t.rule = "IDENT") :
    t.kind = bareKind t.lexeme := by
  obtain ⟨ahead, hcut⟩ := emitted_cut h
  have hkind := Table.cut_kind hcut
  have hlexeme : String.ofList t.cut.lexeme = t.lexeme := String.ofList_toList
  have hname : t.cut.rule = "IDENT" := hrule
  rw [hlexeme, hname] at hkind
  exact (Option.some.inj hkind).symm

/-- A word is reserved if it is `a`, or if its upper case is listed, which is then how it is
spelled. By itself a reserved word is one token, a keyword of that spelling, whatever the settings;
and a bare word of any text is an identifier, with itself for its value, if and only if it is not
reserved. -/
theorem reserved_words_recognised :
    (∀ word k, canonical? word = some k ↔
      word = "a" ∧ k = "a" ∨ k ∈ reserved ∧ upper word = k) ∧
    (∀ word k, canonical? word = some k → ∀ settings, ∃ t,
      table.items settings word.toList = [.token t] ∧ t.kind = .keyword ∧ t.rule = "IDENT" ∧
        t.lexeme = word ∧ t.value? = some (.keyword k)) ∧
    ∀ settings text t, Emits (ofText table settings text) (.token t) → t.rule = "IDENT" →
      ((t.kind = .identifier ∧ t.value? = some (.identifier t.lexeme)) ↔
        canonical? t.lexeme = none) := by
  refine ⟨fun _ _ => canonical?_eq_some_iff, ?_, ?_⟩
  · intro word k h settings
    obtain ⟨hname, hnot⟩ := reserved_word h
    obtain ⟨t, ht, hkind, hrule, hlexeme⟩ := name_item hname hnot settings
    have hkeyword : t.kind = .keyword := by
      rw [hkind, bareKind, isKeyword, h]
      rfl
    refine ⟨t, ht, hkeyword, hrule, hlexeme, ?_⟩
    rw [Token.value?, hkeyword, hlexeme, Value.decode?, h]
    rfl
  · intro settings text t h hrule
    have hkind := emitted_name_kind h hrule
    cases hword : canonical? t.lexeme with
    | none =>
      have hidentifier : t.kind = .identifier := by
        rw [hkind, bareKind, isKeyword, hword]
        rfl
      refine iff_of_true ⟨hidentifier, ?_⟩ rfl
      rw [Token.value?, hidentifier, Value.decode?]
    | some k =>
      have hkeyword : t.kind = .keyword := by
        rw [hkind, bareKind, isKeyword, hword]
        rfl
      refine iff_of_false ?_ (by simp)
      rintro ⟨hidentifier, _⟩
      rw [hkeyword] at hidentifier
      cases hidentifier

/-- A reserved word in mixed case, and another with one more letter. -/
theorem mixed_case_reserved :
    (∃ t, table.items {} "gRoUp_CoNcAt".toList = [.token t] ∧
      t.value? = some (.keyword "GROUP_CONCAT")) ∧
    ∃ t, Emits (ofText table {} "asks".toList) (.token t) ∧ t.rule = "IDENT" ∧
      t.kind = .identifier ∧ t.value? = some (.identifier t.lexeme) := by
  constructor
  · have hlisted : canonical? "gRoUp_CoNcAt" = some "GROUP_CONCAT" :=
      (reserved_words_recognised.1 _ _).mpr (Or.inr ⟨by decide, by decide⟩)
    obtain ⟨t, ht, _, _, _, hvalue⟩ := reserved_words_recognised.2.1 _ _ hlisted {}
    exact ⟨t, ht, hvalue⟩
  · have hname : "asks".toList ∈ ident.words := letters_ident (by decide) (by decide)
    have hnot : "asks".toList ∉ boolean.words := fun h => absurd (mem_boolean.mp h) (by decide)
    obtain ⟨t, ht, _, hrule, hlexeme⟩ := name_item hname hnot {}
    have hemits : Emits (ofText table {} "asks".toList) (.token t) :=
      items_emitted (ht ▸ List.mem_singleton_self _)
    have hfree : canonical? t.lexeme = none := by
      rw [hlexeme, canonical?_eq_find?]
      decide
    obtain ⟨hkind, hvalue⟩ := (reserved_words_recognised.2.2 _ _ t hemits hrule).mpr hfree
    exact ⟨t, hemits, hrule, hkind, hvalue⟩

end Sparql

end SparqlTokens
