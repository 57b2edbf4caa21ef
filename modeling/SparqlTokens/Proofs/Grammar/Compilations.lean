import SparqlTokens.Proofs.Grammar.Declarations
import SparqlTokens.Proofs.Pattern.Assembling
import SparqlTokens.Proofs.Pattern.Searching
import SparqlTokens.Proofs.Text.Lines

/-! The two patterns of a rule side by side, whatever its text. That for whole texts differs from
that for matches at the start in one symbol, the end of the text, which belongs to the last of the
alternatives that are open when it is read: all of them where the group around the text is closed by
its own bracket, but only the last where the text closes it early. -/
namespace SparqlTokens

open Reading
open Text (byteSize)

namespace Pattern.Assembly

variable {a : Assembly}

/-- The expression that groups with nothing open describe, and the one with the end of the text
behind the last alternative. -/
theorem ended_spec (ha : a.Proper) : ∃ earlier last : Reading, earlier.Shrinks ∧ last.Shrinks ∧
    a.inner.all.expression.reading = earlier.orElse last ∧
    (a.add .textEnd 0).inner.all.expression.reading = earlier.orElse (last.andThen atEnd) := by
  have hend : Expression.textEnd.Proper := trivial
  have hadded := (add_proper ha hend 0).inner
  refine ⟨_, a.inner.current.expression.reading, ?_, Expression.reading_shrinks _,
    (Group.all_spec ha.inner).2, (Group.all_spec hadded).2.trans ?_⟩
  · rintro b w more rest ⟨e, he, h⟩
    exact ⟨e, he, e.reading_shrinks h⟩
  · rw [(Group.current_spec hadded).2, (Group.current_spec ha.inner).2]
    have hparts : (a.add .textEnd 0).inner.parts.reverse.map (·.expression) =
        a.inner.parts.reverse.map (·.expression) ++ [.textEnd] := by
      rw [← List.map_singleton (f := fun p : Part => p.expression) (a := ⟨.textEnd, 0⟩),
        ← List.map_append, ← List.reverse_cons]
      rfl
    rw [hparts, Expression.readingRow_append]
    have hlast : Expression.readingRow [.textEnd] = atEnd := andThen_nothing _
    rw [hlast]
    rfl

end Pattern.Assembly

namespace Expression

open Pattern (Symbol Assembly Properties)

variable {properties : Properties}

theorem parse_assembly {text : List Char} {e : Expression} (h : parse properties text = .ok e) :
    ∃ symbols a, Symbol.readAll properties text = .ok symbols ∧
      symbols.foldlM Assembly.step {} = .ok a ∧ a.Proper ∧ e = a.inner.all.expression := by
  unfold parse at h
  obtain ⟨symbols, hsymbols, h⟩ := ok_of_bind h
  obtain ⟨e', he', h⟩ := ok_of_bind h
  unfold ofSymbols at he'
  obtain ⟨a, ha, hfinish⟩ := ok_of_bind he'
  have hproper := Assembly.foldlM_proper Assembly.start_proper (Symbol.readAll_proper hsymbols) ha
  split at h
  · cases h
    exact ⟨symbols, a, hsymbols, ha, hproper, Assembly.finish_ok hfinish⟩
  · cases h

/-- With the end of the text behind its text, an expression reads what it does without, but for its
last alternative only at the end. -/
theorem parse_ended {text : List Char} {e f : Expression} (he : parse properties text = .ok e)
    (hf : parse properties (text ++ ['$']) = .ok f) : e.Proper ∧ f.Proper ∧
      ∃ earlier last : Reading, earlier.Shrinks ∧ last.Shrinks ∧
        e.reading = earlier.orElse last ∧ f.reading = earlier.orElse (last.andThen atEnd) := by
  obtain ⟨symbols, a, hsymbols, ha, hproper, rfl⟩ := parse_assembly he
  obtain ⟨symbols', a', hsymbols', ha', hproper', rfl⟩ := parse_assembly hf
  have hmore : Symbol.readAll properties (text ++ ['$']) = .ok (symbols ++ [.textEnd]) :=
    Symbol.readAll_append (by decide) hsymbols rfl
  rw [hmore] at hsymbols'
  cases hsymbols'
  rw [List.foldlM_append] at ha'
  rw [bind_ok ha] at ha'
  cases ha'
  exact ⟨(Pattern.Group.all_spec hproper.inner).1, (Pattern.Group.all_spec hproper'.inner).1,
    Assembly.ended_spec hproper⟩

end Expression

namespace Rule

variable {r : Rule}

/-- One pattern reads what some alternatives do, and the other the same but for the last of them
only at the end of the text. -/
structure Paired (r : Rule) (earlier last : Reading) : Prop where
  earlier_shrinks : earlier.Shrinks
  last_shrinks : last.Shrinks
  leading : r.leading.reading = earlier.orElse last
  whole : r.whole.reading = earlier.orElse (last.andThen atEnd)

theorem compile_paired {properties : Pattern.Properties} {d : Definition} {text : List Char}
    {rank? : Option ℕ} (h : compile properties d text rank? = .ok r) : ∃ earlier last, r.Paired earlier last := by
  unfold compile at h
  split at h
  · next f e hf he =>
    cases h
    obtain ⟨hproper, hproper', earlier, last, hearlier, hlast, hreading, hreading'⟩ :=
      Expression.parse_ended he hf
    refine ⟨earlier, last, hearlier, hlast, ?_, ?_⟩
    · exact (Expression.toPattern_reading hproper.wellFormed 0).trans hreading
    · exact (Expression.toPattern_reading hproper'.wellFormed 0).trans hreading'
  · cases h

variable {earlier last : Reading} {text : List Char}

/-- What is matched is accepted when nothing stands behind it. -/
theorem Paired.accepts (h : r.Paired earlier last) {k : ℕ} (hk : r.leadingLength? text = some k) :
    r.accepts (text.take k) = true := by
  obtain ⟨s, w, rest, rfl, rfl, hread⟩ := Pattern.find?_sound hk
  have htake : (s ++ (w ++ rest)).take (s ++ w).length = s ++ (w ++ []) := by
    rw [← List.append_assoc, List.take_left, List.append_nil]
  rw [htake]
  apply Pattern.find?_complete
  rw [h.leading] at hread
  rw [h.whole]
  rcases hread with hread | hread
  · exact Or.inl (h.earlier_shrinks hread)
  · exact Or.inr ⟨w, [], (List.append_nil w).symm, h.last_shrinks hread, rfl, rfl⟩

theorem Paired.matches (h : r.Paired earlier last) (haccepts : r.accepts text = true) :
    (r.leadingLength? text).isSome = true := by
  obtain ⟨s, w, rest, rfl, hread⟩ := Pattern.find?_isSome.mp haccepts
  apply Pattern.find?_complete
  rw [h.whole] at hread
  rw [h.leading]
  rcases hread with hread | ⟨u, v, rfl, hread, rfl, rfl⟩
  · exact Or.inl hread
  · rw [List.append_nil]
    exact Or.inr hread

end Rule

namespace Table

variable {properties : Pattern.Properties} {definitions : List Definition} {priority : List String}
  {t : Table} {r : Rule}

theorem build_paired (h : build definitions priority properties = .ok t) (hr : r ∈ t.rules) :
    ∃ earlier last, r.Paired earlier last := by
  obtain ⟨d, _, hdeclare⟩ := exists_related (build_declares h).flip hr
  obtain ⟨text, _, hcompile⟩ := ok_of_bind hdeclare
  exact Rule.compile_paired hcompile

/-- What a rule matches at the start of a text ends between two characters, and is accepted by the
rule as a whole; and of what it accepts as a whole it matches a start. -/
theorem compilations_agree (h : build definitions priority properties = .ok t) (hr : r ∈ t.rules)
    (text : List Char) :
    (∀ n, r.leadingBytes? text = some n → n ≤ byteSize text ∧
      ∃ before after, text = before ++ after ∧ byteSize before = n ∧ r.accepts before = true) ∧
    (r.accepts text = true → (r.leadingBytes? text).isSome = true) := by
  obtain ⟨earlier, last, hpaired⟩ := build_paired h hr
  constructor
  · intro n hn
    obtain ⟨k, hk, rfl⟩ := Option.map_eq_some_iff.mp hn
    exact ⟨Text.byteSize_mono (List.take_prefix k text), text.take k, text.drop k,
      (List.take_append_drop k text).symm, rfl, hpaired.accepts hk⟩
  · intro haccepts
    rw [Rule.leadingBytes?, Option.isSome_map]
    exact hpaired.matches haccepts

/-- A text that closes the group around it: its second alternative is not tied to the start, nor its
first to the end. -/
theorem early_closing :
    let definitions : List Definition := [⟨"A", "a)|(?:b"⟩]
    ∃ t r, build definitions [] = .ok t ∧ r ∈ t.rules ∧
      r.leadingBytes? ['é', 'b', 'a'] = some 3 ∧ ∃ before after,
        ['é', 'b', 'a'] = before ++ after ∧ byteSize before = 3 ∧ r.accepts before = true := by
  intro definitions
  have hmatch : ((build definitions []).toOption.bind fun t => t.rules.head?.bind fun r =>
      r.leadingBytes? ['é', 'b', 'a']) = some 3 := by decide +kernel
  obtain ⟨t, ht, hmatch⟩ := Option.bind_eq_some_iff.mp hmatch
  obtain ⟨r, hr, hmatch⟩ := Option.bind_eq_some_iff.mp hmatch
  have hbuilt : build definitions [] = .ok t := by
    cases hb : build definitions [] with
    | error e =>
      rw [hb] at ht
      cases ht
    | ok u =>
      rw [hb] at ht
      cases ht
      rfl
  have hmem : r ∈ t.rules := List.mem_of_head? hr
  have hagree := (compilations_agree hbuilt hmem ['é', 'b', 'a']).1 3 hmatch
  exact ⟨t, r, hbuilt, hmem, hmatch, hagree.2⟩

-- a letter of ASCII, and digits of any script
example : ((build [⟨"A", "[[:alpha:]]\\d+"⟩] []).toOption.bind fun t => t.rules.head?.bind fun r =>
    r.leadingBytes? ['b', '٣', 'b']) = some 3 := by decide +kernel

end Table

end SparqlTokens
