import Mathlib.Data.Finset.Max
import Mathlib.Data.List.Rotate
import SparqlTokens.Proofs.Lexing.Reordering
import SparqlTokens.Proofs.Sparql.LongestMatch
import SparqlTokens.Proofs.Sparql.SingleTokens

/-! Token rules share no words but the truth values, which are names too. So at every place of a
text one of them has the longest match, and of all orders in which they may be listed those that
name the rule for truth values first read every text the same. -/
namespace SparqlTokens

theorem Pattern.total_perm {l m : List ℕ} (h : l.Perm m) : total l = total m := h.foldr_eq 0

theorem Expression.areWithinLimit_perm {es fs : List Expression} (h : es.Perm fs) :
    areWithinLimit es = areWithinLimit fs := by
  have hsizes (size : Expression → ℕ) :
      Pattern.total (es.map size) = Pattern.total (fs.map size) :=
    Pattern.total_perm (h.map size)
  match es, fs, h with
  | [], fs, h => rw [List.nil_perm.mp h]
  | [e], fs, h => rw [List.singleton_perm.mp h]
  | a :: b :: es, [], h => cases h.length_eq
  | a :: b :: es, [f], h => cases h.length_eq
  | a :: b :: es, c :: d :: fs, h =>
    unfold areWithinLimit
    simp only [hsizes, h.all_eq, h.length_eq]

namespace Sparql

attribute [local irreducible] table Terminal.rule

open Text (dropBytes? slice? byteSize)

namespace Terminal

theorem rule_twins {r : Rule} {T : Terminal} (h : r.Follows .standard T.definition T.form) :
    r.Twins T.rule :=
  ⟨h.name.trans (rule_follows T).name.symm, h.leading.trans (rule_follows T).leading.symm⟩

theorem rule_injective {S T : Terminal} (h : S.rule = T.rule) : S = T := by
  apply name_injective
  rw [← rule_name, ← rule_name, h]

/-- Any order of the names of token rules is an order of the rules. -/
theorem order_tokens {order : List String} (h : order.Perm priority) :
    ∃ chosen : List Terminal, order = chosen.map name ∧ chosen.Perm tokens := by
  have hnames : List.Forall₂ (fun n (T : Terminal) => n = T.name) (tokens.map name) tokens := by
    rw [List.forall₂_map_left_iff]
    exact List.forall₂_same.mpr fun _ _ => rfl
  rw [priority_tokens] at h
  obtain ⟨chosen, hchosen, hperm⟩ := List.perm_comp_forall₂ h hnames
  refine ⟨chosen, ?_, hperm⟩
  rwa [← List.forall₂_eq_eq_eq, List.forall₂_map_right_iff]

/-- The candidates of token rules in some order. -/
def candidatesOf (chosen : List Terminal) (settings : Settings) (rest : List Char) :
    List Candidate :=
  ((chosen.map rule).filterMap (table.candidate? rest)).filter fun c => settings.admits c.rule

theorem candidatesOf_tokens (settings : Settings) (rest : List Char) :
    Candidate.longest? (candidatesOf tokens settings rest) =
      table.select? settings.admits rest := by
  rw [Table.select?, Table.candidates_eq, tokenRules_eq]
  rfl

variable {chosen : List Terminal} {settings : Settings} {rest : List Char}

/-- No rule stands twice in a list, and the one for names not before the one for truth values. -/
def TruthFirst (S T : Terminal) : Prop := S ≠ T ∧ ¬ (S = ident ∧ T = boolean)

theorem equal_candidates {S T : Terminal} (hS : S ∈ tokens) (hT : T ∈ tokens) {c d : Candidate}
    (hc : table.candidate? rest S.rule = some c) (hd : table.candidate? rest T.rule = some d)
    (hlength : d.lexeme.length = c.lexeme.length) :
    S = T ∨ S ∈ [boolean, ident] ∧ T ∈ [boolean, ident] := by
  obtain ⟨_, hcwords, _⟩ := candidate?_spec hc
  obtain ⟨_, hdwords, _⟩ := candidate?_spec hd
  have hstart : d.lexeme <+: c.lexeme := List.prefix_of_prefix_length_le
    (Table.candidate?_cuts hd).2 (Table.candidate?_cuts hc).2 hlength.le
  rw [hstart.eq_of_length hlength] at hdwords
  exact tokens_apart hS hT hcwords hdwords

/-- Of two equally long candidates, the first is a truth value, and the second a name. -/
theorem candidatesOf_pairwise (hall : ∀ T ∈ chosen, T ∈ tokens)
    (horder : chosen.Pairwise TruthFirst) :
    (candidatesOf chosen settings rest).Pairwise fun c d =>
      d.lexeme.length = c.lexeme.length → c.rule = boolean.rule ∧ d.rule = ident.rule := by
  apply List.Pairwise.filter
  rw [List.filterMap_map, List.pairwise_filterMap]
  apply horder.imp_of_mem
  intro S T hS hT hfirst c hc d hd hlength
  rw [Function.comp_apply] at hc hd
  rw [(candidate?_spec hc).1, (candidate?_spec hd).1]
  rcases equal_candidates (hall S hS) (hall T hT) hc hd hlength with he | ⟨hS', hT'⟩
  · exact absurd he hfirst.1
  · simp only [List.mem_cons, List.not_mem_nil, or_false] at hS' hT'
    rcases hS' with rfl | rfl
    · rcases hT' with rfl | rfl
      · exact absurd rfl hfirst.1
      · exact ⟨rfl, rfl⟩
    · rcases hT' with rfl | rfl
      · exact absurd ⟨rfl, rfl⟩ hfirst.2
      · exact absurd rfl hfirst.1

theorem tokens_order : tokens.Pairwise TruthFirst := by
  unfold TruthFirst
  decide

/-- The choice is the same in all orders in which truth values come before names. -/
theorem longest?_order (hperm : chosen.Perm tokens) (horder : chosen.Pairwise TruthFirst) :
    Candidate.longest? (candidatesOf chosen settings rest) =
      table.select? settings.admits rest := by
  rw [← candidatesOf_tokens]
  have hcandidates : (candidatesOf chosen settings rest).Perm
      (candidatesOf tokens settings rest) := ((hperm.map rule).filterMap _).filter _
  refine Candidate.longest?_perm hcandidates
    (R := fun c d => c.rule = boolean.rule ∧ d.rule = ident.rule) ?_
    (candidatesOf_pairwise (fun T hT => hperm.mem_iff.mp hT) horder)
    (candidatesOf_pairwise (fun T hT => hT) tokens_order)
  rintro c d ⟨hc, _⟩ ⟨_, hc'⟩
  have he : boolean = ident := rule_injective (hc.symm.trans hc')
  cases he

section Built

variable {t : Table} (h : List.Forall₂ (fun r T => r.Follows .standard (definition T) (form T)) t.rules all)
include h

theorem continuesName_following : t.continuesName = table.continuesName := by
  funext rest
  obtain ⟨r, hr, hfollows⟩ := following_rule h pnChars
  have hr : t.rule? "PN_CHARS" = some r := hr
  have hrule : table.rule? "PN_CHARS" = some pnChars.rule := rule?_name pnChars
  rw [Table.continuesName, Table.continuesName, hr, hrule]
  dsimp only
  rw [(rule_twins hfollows).leadingLength?]

theorem cut_following (htokens : t.tokenRules = (chosen.map name).filterMap t.rule?)
    (hperm : chosen.Perm tokens) (horder : chosen.Pairwise TruthFirst) : t.cut = table.cut := by
  funext settings rest
  have htwins : List.Forall₂ Rule.Twins t.tokenRules (chosen.map rule) := by
    rw [htokens, List.forall₂_map_right_iff]
    exact (following_rules h chosen).imp fun _ _ => rule_twins
  apply Table.cut_alike
  rw [← longest?_order hperm horder, Table.select?, Table.candidates_eq]
  exact Candidate.longest?_alike (Table.kept_twins (continuesName_following h) Table.admits_name
    htwins rest)

end Built

theorem order_pairwise (hperm : chosen.Perm tokens)
    (hfirst : (chosen.map name).idxOf "BooleanLiteral" < (chosen.map name).idxOf "IDENT") :
    chosen.Pairwise TruthFirst := by
  have hn : chosen.Nodup := hperm.nodup_iff.mpr nodup_tokens
  have hnames : (chosen.map name).Nodup := hn.map name_injective
  rw [List.pairwise_iff_getElem]
  intro i j hi hj hlt
  have hplace : ∀ k (hk : k < chosen.length), (chosen.map name).idxOf chosen[k].name = k := by
    intro k hk
    have hk' : k < (chosen.map name).length := by rwa [List.length_map]
    have hidx := hnames.idxOf_getElem k hk'
    rwa [List.getElem_map] at hidx
  constructor
  · intro he
    have := (List.Nodup.getElem_inj_iff hn).mp he
    omega
  · rintro ⟨hident, hboolean⟩
    have hi' := hplace i hi
    have hj' := hplace j hj
    rw [hident] at hi'
    rw [hboolean] at hj'
    have hlast : (chosen.map name).idxOf "IDENT" = i := hi'
    have hstart : (chosen.map name).idxOf "BooleanLiteral" = j := hj'
    omega

/-- Terminals that share a word share a truth value. -/
theorem apart_or_truth {S T : Terminal} (hS : S ∈ tokens) (hT : T ∈ tokens) {w : List Char}
    (hwS : w ∈ S.words) (hwT : w ∈ T.words) :
    S = T ∨ w ∈ truthWords ∧ S ∈ [boolean, ident] ∧ T ∈ [boolean, ident] := by
  rcases tokens_apart hS hT hwS hwT with he | ⟨hS', hT'⟩
  · exact Or.inl he
  · by_cases he : S = T
    · exact Or.inl he
    · refine Or.inr ⟨mem_truthWords.mpr ?_, hS', hT'⟩
      simp only [List.mem_cons, List.not_mem_nil, or_false] at hS' hT'
      rcases hS' with rfl | rfl
      · exact hwS
      · rcases hT' with rfl | rfl
        · exact hwT
        · exact absurd rfl he

theorem matchAt?_word {T : Terminal} {text : List Char} {offset n : ℕ}
    (h : table.matchAt? T.name text offset = some (some n)) :
    ∃ w ∈ T.words, slice? offset (offset + n) text = some w := by
  rw [Table.matchAt?, rule?_name, Option.map_some, Option.some.injEq,
    Option.bind_eq_some_iff] at h
  obtain ⟨rest, hrest, hbytes⟩ := h
  obtain ⟨before, rfl, rfl⟩ := Text.dropBytes?_eq_some_iff.mp hrest
  obtain ⟨⟨w, ⟨behind, rfl⟩, hw, rfl⟩, _⟩ := (leadingBytes?_iff T).mp hbytes
  exact ⟨w, hw, Text.slice?_between before w behind⟩

end Terminal

open Terminal

def truthRules : List String := ["BooleanLiteral", "IDENT"]

theorem name_truthRules {T : Terminal} (h : T ∈ [boolean, ident]) : T.name ∈ truthRules :=
  List.mem_map_of_mem (f := Terminal.name) h

/-- The match of a token rule at a byte offset, if that of no token rule is longer. -/
structure LongestAt (text : List Char) (offset : ℕ) (name : String) (n : ℕ) : Prop where
  token : name ∈ priority
  found : table.matchAt? name text offset = some (some n)
  longest : ∀ other ∈ priority, ∀ m, table.matchAt? other text offset = some (some m) → m ≤ n

/-- Where a token rule matches, one of them has the longest match. -/
theorem exists_longestAt {text : List Char} {offset : ℕ} {name : String} {n : ℕ}
    (hname : name ∈ priority) (hn : table.matchAt? name text offset = some (some n)) :
    ∃ a m, LongestAt text offset a m := by
  let matching := priority.toFinset.filter fun a => (table.matchAt? a text offset).join.isSome
  let size : String → ℕ := fun a => (table.matchAt? a text offset).join.getD 0
  have hmem : ∀ {a m}, a ∈ priority → table.matchAt? a text offset = some (some m) →
      a ∈ matching := by
    intro a m ha hm
    simp [matching, ha, hm]
  obtain ⟨a, ha, hmax⟩ := matching.exists_max_image size ⟨name, hmem hname hn⟩
  obtain ⟨ha, hsome⟩ := Finset.mem_filter.mp ha
  obtain ⟨m, hm⟩ := Option.isSome_iff_exists.mp hsome
  have hm : table.matchAt? a text offset = some (some m) := Option.join_eq_some_iff.mp hm
  refine ⟨a, m, List.mem_toFinset.mp ha, hm, ?_⟩
  intro b hb k hk
  have hle := hmax b (hmem hb hk)
  simpa [size, hm, hk] using hle

theorem longestAt_unique {text : List Char} {offset : ℕ} {a b : String} {m n : ℕ}
    (ha : LongestAt text offset a m) (hb : LongestAt text offset b n) :
    m = n ∧ (a = b ∨ (∃ w ∈ truthWords, slice? offset (offset + m) text = some w) ∧
      a ∈ truthRules ∧ b ∈ truthRules) := by
  have he : m = n := le_antisymm (hb.longest a ha.token m ha.found)
    (ha.longest b hb.token n hb.found)
  subst he
  have hta := ha.token
  have htb := hb.token
  rw [priority_tokens] at hta htb
  obtain ⟨S, hS, rfl⟩ := List.mem_map.mp hta
  obtain ⟨T, hT, rfl⟩ := List.mem_map.mp htb
  obtain ⟨w, hw, hslice⟩ := matchAt?_word ha.found
  obtain ⟨w', hw', hslice'⟩ := matchAt?_word hb.found
  rw [Option.some.inj (hslice'.symm.trans hslice)] at hw'
  refine ⟨rfl, ?_⟩
  rcases apart_or_truth hS hT hw hw' with rfl | ⟨htruth, hS', hT'⟩
  · exact Or.inl rfl
  · exact Or.inr ⟨⟨w, htruth, hslice⟩, name_truthRules hS', name_truthRules hT'⟩

/-- In any order in which the rule for truth values stands before the one for names, the token rules
make a table that reads every text the same. -/
theorem reordered {order : List String} (hperm : order.Perm priority)
    (hfirst : order.idxOf "BooleanLiteral" < order.idxOf "IDENT") :
    ∃ t, Table.build definitions order = .ok t ∧
      ∀ settings text, t.items settings text = table.items settings text := by
  obtain ⟨chosen, rfl, hchosen⟩ := order_tokens hperm
  have hlimit : Expression.areWithinLimit (chosen.map fun T => T.form.led) = true :=
    (Expression.areWithinLimit_perm (hchosen.map _)).trans tokens_within
  obtain ⟨t, ht, hrules, htokens⟩ := exists_table (hchosen.nodup_iff.mpr nodup_tokens) hlimit
  exact ⟨t, ht, Table.items_cut (cut_following hrules htokens hchosen
    (order_pairwise hchosen hfirst))⟩

/-- No text is accepted as a whole by two token rules, but for the truth values by the rule for them
and the one for names. So the longest match at a place of a text is that of one rule, unless it is a
truth value; and however the token rules are ordered, as long as the rule for truth values stays
before the one for names, every text is read the same. -/
theorem tokens_unambiguous :
    (∀ a ∈ priority, ∀ b ∈ priority, ∀ w, table.check? w a = some true →
      table.check? w b = some true → a = b ∨ w ∈ truthWords ∧ a ∈ truthRules ∧ b ∈ truthRules) ∧
    (∀ w, (table.check? w "BooleanLiteral" = some true ↔ w ∈ truthWords) ∧
      (w ∈ truthWords → table.check? w "IDENT" = some true)) ∧
    (∀ text offset, ∀ a ∈ priority, ∀ n, table.matchAt? a text offset = some (some n) →
      ∃ b m, LongestAt text offset b m) ∧
    (∀ text offset a b m n, LongestAt text offset a m → LongestAt text offset b n →
      m = n ∧ (a = b ∨ (∃ w ∈ truthWords, slice? offset (offset + m) text = some w) ∧
        a ∈ truthRules ∧ b ∈ truthRules)) ∧
    ∀ order : List String, order.Perm priority →
      order.idxOf "BooleanLiteral" < order.idxOf "IDENT" →
      ∃ t, Table.build definitions order = .ok t ∧
        ∀ settings text, t.items settings text = table.items settings text := by
  refine ⟨?_, ?_, fun _ _ _ ha _ => exists_longestAt ha, fun _ _ _ _ _ _ => longestAt_unique,
    fun _ => reordered⟩
  · intro a ha b hb w hwa hwb
    rw [priority_tokens] at ha hb
    obtain ⟨S, hS, rfl⟩ := List.mem_map.mp ha
    obtain ⟨T, hT, rfl⟩ := List.mem_map.mp hb
    rw [check?_iff] at hwa hwb
    rcases apart_or_truth hS hT hwa hwb with rfl | ⟨htruth, hS', hT'⟩
    · exact Or.inl rfl
    · exact Or.inr ⟨htruth, name_truthRules hS', name_truthRules hT'⟩
  · intro w
    refine ⟨(check?_iff boolean w).trans mem_truthWords.symm, fun hw => ?_⟩
    exact (check?_iff ident w).mpr (boolean_ident (mem_truthWords.mp hw))

/-- The rule for truth values first of all, then the one for names, and the rest as before. -/
theorem truth_values_first :
    table.check? ['t', 'r', 'u', 'e'] "IDENT" = some true ∧
      ∃ t, Table.build definitions (priority.rotate 22) = .ok t ∧
        ∀ settings text, t.items settings text = table.items settings text :=
  ⟨(tokens_unambiguous.2.1 _).2 (by decide),
    tokens_unambiguous.2.2.2.2 _ (priority.rotate_perm 22) (by decide +kernel)⟩

end Sparql

end SparqlTokens
