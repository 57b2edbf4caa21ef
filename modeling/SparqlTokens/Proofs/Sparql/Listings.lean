import SparqlTokens.Listing.Tokens
import SparqlTokens.Proofs.Sparql.SingleTokens
import SparqlTokens.Proofs.Text.Quoting

/-! The listing by lines. A line begins with two fields without blanks, which are filled up with
blanks, and ends with a quoted text, so it tells what it was written for, whatever follows; and
nothing in it ends a line. -/
namespace SparqlTokens

open Text

/-! Positions -/

namespace Text.Position

theorem display_toList (p : Position) : p.display.toList =
    Nat.toDigits 10 p.line ++ ':' :: Nat.toDigits 10 p.column := by
  rw [display, String.toList_append, String.toList_append, Nat.toString_eq_repr,
    Nat.toString_eq_repr, Nat.toList_repr, Nat.toList_repr, List.append_assoc]
  rfl

theorem display_inj {p q : Position} (h : p.display.toList = q.display.toList) : p = q := by
  have hcolon : ∀ n, ':' ∉ Nat.toDigits 10 n := by
    intro n hn
    obtain ⟨d, hd, he⟩ := mem_toDigits (by omega) hn
    revert d
    decide
  have hnumber : ∀ {m n : ℕ}, Nat.toDigits 10 m = Nat.toDigits 10 n → m = n :=
    toDigits_inj (by omega) (by omega)
  rw [display_toList, display_toList] at h
  obtain ⟨hline, hcolumn⟩ := split_at_mark (hcolon _) (hcolon _) h
  exact congrArg₂ Position.mk (hnumber hline) (hnumber hcolumn)

theorem display_char {p : Position} {c : Char} (h : c ∈ p.display.toList) :
    isPrintable c = true ∧ c ≠ ' ' := by
  have hblank : ∀ d < 10, d.digitChar ≠ ' ' := by decide
  have hdigit : ∀ n, c ∈ Nat.toDigits 10 n → isPrintable c = true ∧ c ≠ ' ' := by
    intro n hn
    obtain ⟨d, hd, rfl⟩ := mem_toDigits (by omega) hn
    exact ⟨digits_printable (by omega), hblank d hd⟩
  rw [display_toList] at h
  rcases List.mem_append.mp h with h | h
  · exact hdigit _ h
  · rcases List.mem_cons.mp h with rfl | h
    · exact ⟨ascii_printable (by decide) (by decide), by decide⟩
    · exact hdigit _ h

end Text.Position

/-! Fields -/

namespace Grid

/-- The blank behind a field, and those that fill it up, tell where it ends. -/
theorem padRight_inj {width : ℕ} {u v x y : List Char} (hu : ' ' ∉ u) (hv : ' ' ∉ v)
    (h : padRight width u ++ ' ' :: x = padRight width v ++ ' ' :: y) : u = v ∧ x = y := by
  have hfill : ∀ (k : ℕ) (z : List Char),
      List.replicate k ' ' ++ ' ' :: z = ' ' :: (List.replicate k ' ' ++ z) := by
    intro k z
    rw [List.append_cons, ← List.replicate_succ', List.replicate_succ, List.cons_append]
  rw [padRight, padRight, List.append_assoc, List.append_assoc, hfill, hfill] at h
  obtain ⟨rfl, hrest⟩ := split_at_mark hu hv h
  exact ⟨rfl, List.append_cancel_left hrest⟩

theorem padRight_char {width : ℕ} {u : List Char} {c : Char} (h : c ∈ padRight width u) :
    c ∈ u ∨ c = ' ' := by
  rcases List.mem_append.mp h with h | h
  · exact Or.inl h
  · exact Or.inr (List.eq_of_mem_replicate h)

end Grid

/-! Lines -/

namespace Listing

/-- What the listing by lines tells of a token. -/
structure SameLine (t u : Token) : Prop where
  start : t.start = u.start
  rule : t.rule = u.rule
  lexeme : t.lexeme = u.lexeme

/-- The line of a token without its end. -/
def bareLine (t : Token) : List Char :=
  Grid.padRight 8 t.start.display.toList ++ ' ' :: Grid.padRight 22 t.rule.toList ++
    ' ' :: Text.quoted t.lexeme.toList

theorem tokenLine_eq (t : Token) : tokenLine t = bareLine t ++ ['\n'] := rfl

variable {t u : Token}

/-- A line tells what it was written for, whatever follows. -/
theorem tokenLine_inj (ht : ' ' ∉ t.rule.toList) (hu : ' ' ∉ u.rule.toList) {x y : List Char}
    (h : tokenLine t ++ x = tokenLine u ++ y) : SameLine t u ∧ x = y := by
  have hblank : ∀ p : Position, ' ' ∉ p.display.toList := by
    intro p hp
    exact (Position.display_char hp).2 rfl
  simp only [tokenLine, List.append_assoc, List.cons_append] at h
  obtain ⟨hstart, h⟩ := Grid.padRight_inj (hblank _) (hblank _) h
  obtain ⟨hrule, h⟩ := Grid.padRight_inj ht hu h
  obtain ⟨hlexeme, h⟩ := quoted_inj h
  refine ⟨⟨Position.display_inj hstart, ?_, ?_⟩, (List.cons.inj h).2⟩
  · exact String.toList_inj.mp hrule
  · exact String.toList_inj.mp hlexeme

theorem bareLine_printable (ht : ∀ c ∈ t.rule.toList, isPrintable c = true) {c : Char}
    (h : c ∈ bareLine t) : isPrintable c = true := by
  have hblank : isPrintable ' ' = true := ascii_printable (by decide) (by decide)
  rcases List.mem_append.mp h with h | h
  · rcases List.mem_append.mp h with h | h
    · rcases Grid.padRight_char h with h | rfl
      · exact (Position.display_char h).1
      · exact hblank
    · rcases List.mem_cons.mp h with rfl | h
      · exact hblank
      · rcases Grid.padRight_char h with h | rfl
        · exact ht c h
        · exact hblank
  · rcases List.mem_cons.mp h with rfl | h
    · exact hblank
    · exact quoted_printable h

end Listing

namespace Sparql

open Listing Scan Terminal

attribute [local irreducible] table Terminal.rule

/-- The tokens that runs over some texts hand out. -/
def HandedOut (t : Token) : Prop :=
  ∃ settings text, Emits (ofText table settings text) (.token t)

theorem name_chars : (tokens.all fun T => T.name.toList.all fun c =>
    0x20 < c.toNat && c.toNat ≤ 0x7e) = true := by
  decide +kernel

theorem HandedOut.rule {t : Token} (h : HandedOut t) {c : Char} (hc : c ∈ t.rule.toList) :
    isPrintable c = true ∧ c ≠ ' ' := by
  obtain ⟨settings, text, hemits⟩ := h
  obtain ⟨ahead, hcut⟩ := emitted_cut hemits
  obtain ⟨T, hT, _, hrule, _⟩ := cut_lexeme hcut
  have hname : t.rule = T.name := hrule
  rw [hname] at hc
  have hcheck := List.all_eq_true.mp (List.all_eq_true.mp name_chars T hT) c hc
  simp only [Bool.and_eq_true, decide_eq_true_eq] at hcheck
  obtain ⟨hl, hu⟩ := hcheck
  refine ⟨ascii_printable (by omega) hu, ?_⟩
  rintro rfl
  exact absurd hl (by decide)

/-- Of tokens that runs hand out, two lists with the same listing by lines agree, token by token, in
start, rule and lexeme. A listing has a line for each token, which ends in a line feed, and of which
nothing else ends a line or cannot be seen. -/
theorem text_listing_unambiguous :
    (∀ ts us, (∀ t ∈ ts, HandedOut t) → (∀ u ∈ us, HandedOut u) →
      textListing ts = textListing us → List.Forall₂ SameLine ts us) ∧
    ∀ ts, (∀ t ∈ ts, HandedOut t) → ∃ lines : List (List Char), lines.length = ts.length ∧
      (textListing ts).toList = lines.flatMap (· ++ ['\n']) ∧
      ∀ line ∈ lines, ∀ c ∈ line, isPrintable c = true ∧ c ≠ '\n' := by
  constructor
  · intro ts us hts hus h
    have hlines : ts.flatMap tokenLine ++ [] = us.flatMap tokenLine ++ [] := by
      rw [List.append_nil, List.append_nil]
      exact String.ofList_injective h
    have hend : ∀ t : Token, ¬ tokenLine t <+: [] := by
      intro t hprefix
      have hnil := List.prefix_nil.mp hprefix
      rw [tokenLine_eq] at hnil
      exact List.append_ne_nil_of_right_ne_nil _ (List.cons_ne_nil _ _) hnil
    refine (forall₂_of_pieces ?_ (fun u _ => hend u) (fun t _ => hend t) hlines).1
    intro t ht u hu x y
    apply tokenLine_inj
    · intro hblank
      exact ((hts t ht).rule hblank).2 rfl
    · intro hblank
      exact ((hus u hu).rule hblank).2 rfl
  · intro ts hts
    refine ⟨ts.map bareLine, List.length_map _, ?_, ?_⟩
    · rw [textListing, String.toList_ofList, List.flatMap_map]
      rfl
    · intro line hline c hc
      obtain ⟨t, ht, rfl⟩ := List.mem_map.mp hline
      have hprintable := bareLine_printable (fun d hd => ((hts t ht).rule hd).1) hc
      refine ⟨hprintable, ?_⟩
      rintro rfl
      exact absurd hprintable (by decide +kernel)

/-- A text over two lines takes one of the listing. -/
theorem text_over_lines_listed :
    ∃ t, HandedOut t ∧ t.lexeme.toList = ['"', '"', '"', '\n', '"', 'a', '"', '"', '"'] ∧
      List.Forall₂ SameLine [t] [t] ∧
      ∃ lines : List (List Char), lines.length = 1 ∧
        (textListing [t]).toList = lines.flatMap (· ++ ['\n']) ∧
        ∀ line ∈ lines, ∀ c ∈ line, isPrintable c = true ∧ c ≠ '\n' := by
  have hword : ['"', '"', '"', '\n', '"', 'a', '"', '"', '"'] ∈ stringLong2.words := by
    have hfirst : ['\n'] ∈ (Form.longPart '"').language := mem_longPart.mpr
      ⟨['\n'], mem_charUnless.mpr (Or.inl ⟨'\n', by decide, rfl⟩), Or.inl rfl⟩
    have hsecond : ['"', 'a'] ∈ (Form.longPart '"').language := mem_longPart.mpr
      ⟨['a'], mem_charUnless.mpr (Or.inl ⟨'a', by decide, rfl⟩), Or.inr (Or.inl rfl)⟩
    exact mem_long.mpr ⟨['\n'] ++ (['"', 'a'] ++ []),
      kstar_append hfirst (kstar_append hsecond (Language.nil_mem_kstar _)), rfl⟩
  have ha : stringLong2.Admitted {} := Or.inl rfl
  obtain ⟨t, ht, _, htext, _⟩ := read_word (by decide) ha hword nofun rfl rfl
  have hout : HandedOut t := ⟨_, _, items_emitted (ht ▸ List.mem_singleton_self _)⟩
  have hall : ∀ u ∈ [t], HandedOut u := fun u hu => List.mem_singleton.mp hu ▸ hout
  exact ⟨t, hout, htext, text_listing_unambiguous.1 _ _ hall hall rfl,
    text_listing_unambiguous.2 _ hall⟩

end Sparql

end SparqlTokens
