import SparqlTokens.Proofs.Sparql.Tokens
import SparqlTokens.Proofs.Text.Lines

/-! The match of a rule at the start of a text. A rule prefers some of its alternatives to others,
yet for every rule of the grammar, whether it makes tokens or only helps others, what it prefers is
its longest match. -/
namespace SparqlTokens

open Expression (startLengths)

/-- The sizes in bytes of the starts of a text that are in a language. -/
def startSizes (l : Language Char) (text : List Char) : Set ℕ :=
  {n | ∃ u, u <+: text ∧ u ∈ l ∧ Text.byteSize u = n}

theorem greatest_size {l : Language Char} {text : List Char} {n : ℕ}
    (h : IsGreatest (startLengths l text) n) :
    IsGreatest (startSizes l text) (Text.byteSize (text.take n)) := by
  obtain ⟨⟨w, hw, hl, hlen⟩, hmax⟩ := h
  have htake : text.take n = w := by
    rw [← hlen]
    exact (List.prefix_iff_eq_take.mp hw).symm
  rw [htake]
  refine ⟨⟨w, hw, hl, rfl⟩, ?_⟩
  rintro _ ⟨u, hu, hul, rfl⟩
  have hle : u.length ≤ w.length := hlen ▸ hmax ⟨u, hu, hul, rfl⟩
  exact Text.byteSize_mono (List.prefix_of_prefix_length_le hu hw hle)

namespace Sparql

attribute [local irreducible] table Terminal.rule

namespace Terminal

theorem leadingBytes?_none (T : Terminal) {text : List Char} :
    T.rule.leadingBytes? text = none ↔ ∀ u, u <+: text → u ∉ T.words := by
  rw [Rule.leadingBytes?, Option.map_eq_none_iff, ← Option.not_isSome_iff_eq_none,
    leadingLength?_isSome_iff, not_exists]
  exact forall_congr' fun u => not_and

theorem leadingBytes?_iff (T : Terminal) {text : List Char} {n : ℕ} :
    T.rule.leadingBytes? text = some n ↔ IsGreatest (startSizes T.words text) n := by
  have greatest : ∀ {m}, T.rule.leadingBytes? text = some m →
      IsGreatest (startSizes T.words text) m := by
    intro m h
    obtain ⟨k, hk, rfl⟩ := Option.map_eq_some_iff.mp h
    exact greatest_size ((leadingLength?_iff T).mp hk)
  refine ⟨greatest, fun h => ?_⟩
  obtain ⟨u, hu, hw, _⟩ := h.1
  cases hm : T.rule.leadingBytes? text with
  | none => exact absurd hw ((leadingBytes?_none T).mp hm u hu)
  | some m => rw [(greatest hm).unique h]

theorem check?_false_iff (T : Terminal) (w : List Char) :
    table.check? w T.name = some false ↔ w ∉ T.words := by
  rw [← accepts_iff, Table.check?, rule?_name, Option.map_some, Option.some.injEq,
    Bool.not_eq_true]

end Terminal

open Terminal

/-- The sizes in bytes of the starts of a text that the named rule accepts as a whole. -/
def acceptedSizes (name : String) (text : List Char) : Set ℕ :=
  {n | ∃ u, u <+: text ∧ table.check? u name = some true ∧ Text.byteSize u = n}

/-- Each rule matches the longest start of a text that it accepts as a whole, and matches nothing
only if it accepts no start, the empty one included. -/
theorem match_is_longest {name : String} (h : name ∈ table.names) (text : List Char) :
    ∃ r, table.rule? name = some r ∧
      (∀ n, r.leadingBytes? text = some n ↔ IsGreatest (acceptedSizes name text) n) ∧
      (r.leadingBytes? text = none ↔ ∀ u, u <+: text → table.check? u name = some false) := by
  obtain ⟨T, rfl⟩ := mem_names.mp h
  have hsizes : acceptedSizes T.name text = startSizes T.words text := by
    apply Set.ext
    intro n
    exact exists_congr fun u => and_congr_right fun _ => and_congr_left fun _ => check?_iff T u
  refine ⟨T.rule, rule?_name T, fun n => ?_, ?_⟩
  · rw [hsizes]
    exact leadingBytes?_iff T
  · rw [leadingBytes?_none]
    exact forall_congr' fun u => imp_congr_right fun _ => (check?_false_iff T u).symm

/-- The language tag is not complete, so the literal ends with its quotes. -/
theorem literal_before_open_tag :
    IsGreatest (acceptedSizes "RDFLiteral" ['"', '\u00e9', '"', '@', '-', '1']) 4 := by
  have hname : "RDFLiteral" ∈ table.names := mem_names.mpr ⟨rdfLiteral, rfl⟩
  obtain ⟨r, hr, hlongest, _⟩ := match_is_longest hname ['"', '\u00e9', '"', '@', '-', '1']
  have hrule : rdfLiteral.rule = r := Option.some.inj ((rule?_name rdfLiteral).symm.trans hr)
  apply (hlongest 4).mp
  rw [← hrule, Rule.leadingBytes?, Rule.leadingLength?, (rule_follows rdfLiteral).leading]
  decide +kernel

end Sparql

end SparqlTokens
