import SparqlTokens.Proofs.Pattern.NormalForm
import SparqlTokens.Proofs.Pattern.Symbols

/-! What a text is read as. Each set and each count that a symbol brings is in order, so every part
of the groups under construction is, and the expression in the end reads what one of its
alternatives reads, each of them a row of parts. -/
namespace SparqlTokens.Pattern

open Expression (readingRow readingAny)

/-! Classes and escapes -/

/-- Ranges stand for the characters in one of them or, negated, for all others. -/
theorem Ranges.toSet_spec (ranges : Ranges) (negated : Bool) : (ranges.toSet negated).Proper ∧
    ∀ c, c ∈ ranges.toSet negated ↔ ranges.contains c = !negated := by
  obtain ⟨hproper, hmem⟩ := CharSet.ofRanges_spec ranges
  cases negated with
  | false => exact ⟨hproper, hmem⟩
  | true =>
    refine ⟨CharSet.compl_proper hproper, fun c => ?_⟩
    refine (CharSet.mem_compl hproper.ascending).trans ?_
    rw [hmem, Bool.not_true, Bool.not_eq_true]

theorem asciiClass?_spec {word : List Char} {s : CharSet} (h : asciiClass? word = some s) :
    ∃ name ranges negated, (name, ranges) ∈ asciiClasses ∧
      word = (if negated then [':', '^'] else [':']) ++ name ++ [':'] ∧
      s = Ranges.toSet ranges negated := by
  obtain ⟨⟨name, ranges⟩, hmem, h⟩ := List.exists_of_findSome?_eq_some h
  dsimp only at h
  split at h
  · next hword =>
    cases h
    exact ⟨name, ranges, false, hmem, hword, rfl⟩
  · split at h
    · next hword =>
      cases h
      exact ⟨name, ranges, true, hmem, hword, rfl⟩
    · cases h

namespace Escape

variable {e : Escape}

/-- The set that an escape stands for, if it stands for one, is in order. -/
def Proper : Escape → Prop
  | set s => s.Proper
  | char _ | textStart | textEnd => True

theorem toSet_proper (he : e.Proper) {s : CharSet} (h : e.toSet = .ok s) : s.Proper := by
  cases e with
  | char c =>
    cases h
    exact CharSet.single_proper c
  | set t =>
    cases h
    exact he
  | textStart => cases h
  | textEnd => cases h

end Escape

/-! Symbols -/

namespace Symbol

/-- The set or the counts of a symbol are in order. -/
def Proper : Symbol → Prop
  | set s _ => s.Proper
  | repeated least most _ => ∀ m ∈ most, least ≤ m
  | textStart | textEnd | opening _ | closing | bar => True

theorem symbol_proper {e : Escape} (he : e.Proper) : e.symbol.Proper := by
  cases e with
  | char c => exact CharSet.single_proper c
  | set s => exact he
  | textStart => trivial
  | textEnd => trivial

/-- Parts of a set whose bracket is open are in order, and so is what a pending operation gives. -/
structure OpenSet.Proper (o : OpenSet) : Prop where
  parts : o.parts.set.Proper
  pending : ∀ p ∈ o.pending, p.2.set.Proper ∧
    ∀ {s t : CharSet}, s.Proper → t.Proper → (p.1 s t).Proper

namespace OpenSet

variable {o : OpenSet}

theorem start_proper (negated : Bool) : OpenSet.Proper { negated } :=
  ⟨CharSet.none_proper, fun p hp => by cases hp⟩

theorem add_proper (ho : o.Proper) {w : WrittenSet} (hw : w.set.Proper) : (o.add w).Proper :=
  ⟨CharSet.combine_proper _ ho.parts hw, ho.pending⟩

theorem addChar_proper (ho : o.Proper) (c : Char) : (o.addChar c).Proper :=
  add_proper ho (CharSet.single_proper c)

theorem list_proper (ho : o.Proper) : o.list.set.Proper := by
  unfold list
  split
  · exact ho.parts
  · exact ho.parts

theorem settled_proper (ho : o.Proper) : o.settled.set.Proper := by
  unfold settled
  split
  · exact list_proper ho
  · next f left hpending =>
    obtain ⟨hleft, hf⟩ := ho.pending _ hpending
    exact hf hleft (list_proper ho)

theorem operate_proper (ho : o.Proper) (f : Bool → Bool → Bool) :
    (o.operate (CharSet.combine f)).Proper where
  parts := CharSet.none_proper
  pending p hp := by
    cases hp
    exact ⟨settled_proper ho, CharSet.combine_proper f⟩

theorem close_proper (ho : o.Proper) : o.close.set.Proper := by
  unfold close
  dsimp only
  split
  · exact CharSet.compl_proper (settled_proper ho)
  · exact settled_proper ho

end OpenSet

variable {properties : Properties} {text rest : List Char}

theorem hyphens_proper {o : OpenSet} (ho : o.Proper) :
    (leadingMembers.hyphens o text).1.Proper := by
  fun_induction leadingMembers.hyphens o text with
  | case1 o r ih => exact ih (OpenSet.addChar_proper ho '-')
  | case2 => exact ho

theorem leadingMembers_proper {o : OpenSet} (ho : o.Proper) :
    (leadingMembers o text).1.Proper := by
  unfold leadingMembers
  split
  · exact hyphens_proper (OpenSet.addChar_proper ho '-')
  · exact OpenSet.addChar_proper ho ']'
  · exact ho

theorem openSet_proper (text : List Char) : (openSet text).1.Proper := by
  unfold openSet
  split
  · exact leadingMembers_proper (OpenSet.start_proper true)
  · exact leadingMembers_proper (OpenSet.start_proper false)

theorem property_ok {negated : Bool} {name : List Char} {s : CharSet}
    (h : property properties negated name = .ok s) :
    ∃ ranges, properties.named? name = some ranges ∧ s = ranges.toSet negated := by
  unfold property at h
  split at h
  · cases h
  · next ranges hranges =>
    cases h
    exact ⟨ranges, hranges, rfl⟩

theorem readProperty_ok {negated : Bool} {s : CharSet}
    (h : readProperty properties negated text = .ok (s, rest)) :
    ∃ name ranges, properties.named? name = some ranges ∧ s = ranges.toSet negated := by
  unfold readProperty at h
  split at h
  · cases h
  · split at h
    · cases h
    · exact ⟨_, property_ok (ok_of_pair h).1⟩
  · cases h
  · exact ⟨_, property_ok (ok_of_pair h).1⟩

theorem readClass_proper {negated : Bool} {e : Escape}
    (h : readClass properties negated text = .ok (e, rest)) : e.Proper := by
  obtain ⟨s, rfl, hs⟩ := readClass_ok h
  obtain ⟨_, ranges, _, rfl⟩ := readProperty_ok hs
  exact (Ranges.toSet_spec ranges negated).1

theorem escapeOf_proper {c : Char} {e : Escape} (h : escapeOf properties c = .ok e) :
    e.Proper := by
  have class_proper : ∀ ranges negated, (Escape.set (Ranges.toSet ranges negated)).Proper :=
    fun ranges negated => (Ranges.toSet_spec ranges negated).1
  unfold escapeOf at h
  split at h
  case h_19 =>
    split at h
    · cases h; trivial
    · cases h
  all_goals cases h <;> first
    | trivial
    | exact class_proper _ _

theorem readEscape_proper {e : Escape} (h : readEscape properties text = .ok (e, rest)) :
    e.Proper := by
  unfold readEscape at h
  split at h
  · cases h
  · obtain ⟨c, rfl, _⟩ := readHexChar_ok h; trivial
  · obtain ⟨c, rfl, _⟩ := readHexChar_ok h; trivial
  · obtain ⟨c, rfl, _⟩ := readHexChar_ok h; trivial
  · exact readClass_proper h
  · exact readClass_proper h
  · exact escapeOf_proper (ok_of_pair h).1

theorem readMember_proper {e : Escape} (h : readMember properties text = .ok (e, rest)) :
    e.Proper := by
  unfold readMember at h
  split at h
  · cases h
  · exact readEscape_proper h
  · cases h
    trivial

theorem bracketClass?_proper {s : CharSet} (h : bracketClass? text = some (s, rest)) :
    s.Proper := by
  unfold bracketClass? at h
  split at h
  · cases h
  · obtain ⟨s', hs, h⟩ := Option.map_eq_some_iff.mp h
    cases h
    obtain ⟨_, ranges, negated, _, _, rfl⟩ := asciiClass?_spec hs
    exact (Ranges.toSet_spec ranges negated).1

theorem readMembers_proper {s : CharSet} (h : readMembers properties text = .ok (s, rest)) :
    s.Proper := by
  obtain ⟨lo, r, hlo, ⟨hs, _⟩ | ⟨t, _, hrange⟩⟩ := readMembers_ok h
  · exact Escape.toSet_proper (readMember_proper hlo) hs
  · obtain ⟨_, _, _, _, _, _, hle, rfl⟩ := readRange_ok hrange
    exact CharSet.range_proper hle

theorem readSet_proper {bound : ℕ} {o : OpenSet} {outer : List OpenSet} {w : WrittenSet}
    (ho : o.Proper) (houter : ∀ p ∈ outer, p.Proper)
    (h : readSet properties bound o outer text = .ok (w, rest)) : w.set.Proper := by
  induction bound generalizing o outer text with
  | zero => cases h
  | succ bound ih =>
    unfold readSet at h
    split at h
    · next heq => cases heq
    · cases h
    · next heq =>
      cases heq
      split at h
      · cases h
        exact OpenSet.close_proper ho
      · obtain ⟨hp, houter⟩ := List.forall_mem_cons.mp houter
        exact ih (OpenSet.add_proper hp (OpenSet.close_proper ho)) houter h
    · next heq =>
      cases heq
      split at h
      · next s r hclass =>
        have hw : (⟨s, 0⟩ : WrittenSet).set.Proper := bracketClass?_proper hclass
        exact ih (OpenSet.add_proper ho hw) houter h
      · exact ih (openSet_proper _) (List.forall_mem_cons.mpr ⟨ho, houter⟩) h
    · next heq =>
      cases heq
      exact ih (OpenSet.operate_proper ho _) houter h
    · next heq =>
      cases heq
      exact ih (OpenSet.operate_proper ho _) houter h
    · next heq =>
      cases heq
      exact ih (OpenSet.operate_proper ho _) houter h
    · next heq _ _ _ _ _ _ =>
      cases heq
      obtain ⟨⟨s, r⟩, hs, hnext⟩ := ok_of_bind h
      have hw : (⟨s, 0⟩ : WrittenSet).set.Proper := readMembers_proper hs
      exact ih (OpenSet.add_proper ho hw) houter hnext

theorem repetition_proper {least : ℕ} {most : Option ℕ} {s : Symbol}
    (hcounts : ∀ m ∈ most, least ≤ m) (h : repetition least most text = .ok (s, rest)) :
    s.Proper := by
  cases h
  exact hcounts

theorem unbounded_ordered {least : ℕ} : ∀ m ∈ (none : Option ℕ), least ≤ m := by
  intro m hm
  cases hm

theorem exact_ordered {least : ℕ} : ∀ m ∈ some least, least ≤ m := by
  intro m hm
  cases hm
  exact le_rfl

theorem readCounts_proper {s : Symbol} (h : readCounts text = .ok (s, rest)) : s.Proper := by
  unfold readCounts at h
  obtain ⟨⟨least, r⟩, _, h⟩ := ok_of_bind h
  dsimp only at h
  split at h
  · exact repetition_proper exact_ordered h
  · exact repetition_proper unbounded_ordered h
  · obtain ⟨⟨most, r'⟩, _, hend⟩ := ok_of_bind h
    dsimp only at hend
    split at hend
    · split at hend
      · next hle =>
        exact repetition_proper (fun m hm => by cases hm; exact hle) hend
      · cases hend
    · cases hend
  · cases h

theorem readNamed_opens {s : Symbol} (h : readNamed properties text = .ok (s, rest)) :
    ∃ name, s = .opening (.named name) := by
  obtain ⟨⟨name, r⟩, _, h⟩ := ok_of_bind h
  cases h
  exact ⟨name, rfl⟩

theorem read_proper {c : Char} {s : Symbol} (h : read properties c text = .ok (s, rest)) :
    s.Proper := by
  unfold read at h
  split at h
  · obtain ⟨⟨e, r⟩, he, hrest⟩ := ok_of_bind h
    cases hrest
    exact symbol_proper (readEscape_proper he)
  · obtain ⟨⟨w, r⟩, hw, hrest⟩ := ok_of_bind h
    cases hrest
    exact readSet_proper (openSet_proper _) (List.forall_mem_nil _) hw
  · cases h; trivial
  · obtain ⟨name, rfl⟩ := readNamed_opens h; trivial
  · obtain ⟨name, rfl⟩ := readNamed_opens h; trivial
  · cases h
  · cases h; trivial
  · cases h; trivial
  · cases h; trivial
  · cases h; trivial
  · cases h; trivial
  · cases h
    exact CharSet.compl_proper (CharSet.single_proper '\n')
  · exact repetition_proper unbounded_ordered h
  · exact repetition_proper unbounded_ordered h
  · exact repetition_proper (fun m _ => Nat.zero_le m) h
  · exact readCounts_proper h
  · cases h
    exact CharSet.single_proper c

theorem readAllWith_proper {bound : ℕ} {symbols : List Symbol}
    (h : readAllWith properties bound text = .ok symbols) : ∀ s ∈ symbols, s.Proper := by
  induction bound generalizing text symbols with
  | zero =>
    cases text with
    | nil => cases h; exact List.forall_mem_nil _
    | cons c r => cases h
  | succ bound ih =>
    cases text with
    | nil => cases h; exact List.forall_mem_nil _
    | cons c r =>
      rw [readAllWith] at h
      obtain ⟨⟨s, r'⟩, hs, hrest⟩ := ok_of_bind h
      obtain ⟨ss, hss, hend⟩ := ok_of_bind hrest
      cases hend
      exact List.forall_mem_cons.mpr ⟨read_proper hs, ih hss⟩

theorem readAll_proper {symbols : List Symbol} (h : readAll properties text = .ok symbols) :
    ∀ s ∈ symbols, s.Proper := readAllWith_proper h

end Symbol

/-! Parts and groups -/

def ProperParts (ps : List Part) : Prop := ∀ p ∈ ps, p.expression.Proper

theorem ProperParts.expressions {ps : List Part} (h : ProperParts ps) :
    ∀ e ∈ ps.map (·.expression), e.Proper := by
  intro e he
  obtain ⟨p, hp, rfl⟩ := List.mem_map.mp he
  exact h p hp

namespace Part

theorem joined_row {ps : List Part} (h : ProperParts ps) :
    (joined .sequence ps).expression.Proper ∧
      (joined .sequence ps).expression.reading = readingRow (ps.map (·.expression)) := by
  match ps, h with
  | [], _ => exact ⟨trivial, Expression.reading_sequence []⟩
  | [p], h => exact ⟨h p List.mem_cons_self, (Reading.andThen_nothing _).symm⟩
  | _ :: _ :: _, h =>
    exact ⟨Expression.sequence_proper h.expressions, Expression.reading_sequence _⟩

theorem joined_choice {ps : List Part} (h : ProperParts ps) :
    (joined .choice ps).expression.Proper ∧
      (joined .choice ps).expression.reading = readingAny (ps.map (·.expression)) := by
  match ps, h with
  | [], h => exact Expression.choice_spec h.expressions
  | [p], h => exact ⟨h p List.mem_cons_self, (Expression.readingAny_singleton _).symm⟩
  | _ :: _ :: _, h => exact Expression.choice_spec h.expressions

theorem within_proper {p q : Part} {f : Expression → Expression}
    (hf : (f p.expression).Proper) (h : p.within f = .ok q) : q.expression.Proper := by
  unfold within at h
  split at h
  · cases h
    exact hf
  · cases h

end Part

structure Group.Proper (g : Group) : Prop where
  earlier : ProperParts g.earlier
  parts : ProperParts g.parts

namespace Group

variable {g : Group}

theorem new_proper (number : Option ℕ) : Group.Proper { number } :=
  ⟨List.forall_mem_nil _, List.forall_mem_nil _⟩

theorem add_proper (hg : g.Proper) {p : Part} (hp : p.expression.Proper) : (g.add p).Proper :=
  ⟨hg.earlier, List.forall_mem_cons.mpr ⟨hp, hg.parts⟩⟩

theorem current_spec (hg : g.Proper) : g.current.expression.Proper ∧
    g.current.expression.reading = readingRow (g.parts.reverse.map (·.expression)) :=
  Part.joined_row fun p hp => hg.parts p (List.mem_reverse.mp hp)

theorem alternatives_proper (hg : g.Proper) : ProperParts (g.current :: g.earlier).reverse := by
  intro p hp
  rcases List.mem_cons.mp (List.mem_reverse.mp hp) with rfl | hp
  · exact (current_spec hg).1
  · exact hg.earlier p hp

theorem all_spec (hg : g.Proper) : g.all.expression.Proper ∧ g.all.expression.reading =
    (readingAny (g.earlier.reverse.map (·.expression))).orElse g.current.expression.reading := by
  obtain ⟨hproper, hreading⟩ := Part.joined_choice (alternatives_proper hg)
  refine ⟨hproper, hreading.trans ?_⟩
  rw [List.reverse_cons, List.map_append, Expression.readingAny_append]
  exact congrArg (Reading.orElse _) (Expression.readingAny_singleton _)

theorem close_proper (hg : g.Proper) {p : Part} (h : g.close = .ok p) : p.expression.Proper := by
  unfold close at h
  refine Part.within_proper ?_ h
  cases g.number with
  | none => exact (all_spec hg).1
  | some n => exact (all_spec hg).1

end Group

structure Assembly.Proper (a : Assembly) : Prop where
  inner : a.inner.Proper
  outer : ∀ g ∈ a.outer, g.Proper

namespace Assembly

variable {a b : Assembly}

theorem add_proper (ha : a.Proper) {e : Expression} (he : e.Proper) (depth : ℕ) :
    (a.add e depth).Proper := ⟨Group.add_proper ha.inner he, ha.outer⟩

theorem openGroup_proper (ha : a.Proper) {o : Opening} (h : a.openGroup o = .ok b) :
    b.Proper := by
  have opened : ∀ g ∈ a.inner :: a.outer, g.Proper :=
    List.forall_mem_cons.mpr ⟨ha.inner, ha.outer⟩
  cases o with
  | plain =>
    cases h
    exact ⟨Group.new_proper _, opened⟩
  | numbered =>
    cases h
    exact ⟨Group.new_proper _, opened⟩
  | named name =>
    unfold openGroup at h
    dsimp only at h
    split at h
    · cases h
    · cases h
      exact ⟨Group.new_proper _, opened⟩

theorem step_proper (ha : a.Proper) {s : Symbol} (hs : s.Proper) (h : a.step s = .ok b) :
    b.Proper := by
  cases s with
  | set s depth =>
    cases h
    exact add_proper ha (Expression.ofSet_proper hs) depth
  | textStart =>
    cases h
    have hstart : Expression.textStart.Proper := trivial
    exact add_proper ha hstart 0
  | textEnd =>
    cases h
    have hend : Expression.textEnd.Proper := trivial
    exact add_proper ha hend 0
  | opening o => exact openGroup_proper ha h
  | closing =>
    unfold step at h
    dsimp only at h
    split at h
    · cases h
    · next g outer houter =>
      obtain ⟨p, hp, hb⟩ := ok_of_bind h
      cases hb
      have hopen := ha.outer
      rw [houter] at hopen
      obtain ⟨hg, hrest⟩ := List.forall_mem_cons.mp hopen
      exact ⟨Group.add_proper hg (Group.close_proper ha.inner hp), hrest⟩
  | bar =>
    cases h
    refine ⟨⟨?_, List.forall_mem_nil _⟩, ha.outer⟩
    exact List.forall_mem_cons.mpr ⟨(Group.current_spec ha.inner).1, ha.inner.earlier⟩
  | repeated least most greedy =>
    unfold step at h
    dsimp only at h
    split at h
    · cases h
    · next p parts hparts =>
      obtain ⟨q, hq, hb⟩ := ok_of_bind h
      cases hb
      have hall := ha.inner.parts
      rw [hparts] at hall
      obtain ⟨hp, hrest⟩ := List.forall_mem_cons.mp hall
      have hq := Part.within_proper (Expression.repetition_proper hp hs greedy) hq
      exact ⟨⟨ha.inner.earlier, List.forall_mem_cons.mpr ⟨hq, hrest⟩⟩, ha.outer⟩

theorem foldlM_proper {symbols : List Symbol} (ha : a.Proper) (hs : ∀ s ∈ symbols, s.Proper)
    (h : symbols.foldlM step a = .ok b) : b.Proper := by
  induction symbols generalizing a with
  | nil => cases h; exact ha
  | cons s symbols ih =>
    obtain ⟨hfirst, hrest⟩ := List.forall_mem_cons.mp hs
    rw [List.foldlM_cons] at h
    obtain ⟨c, hc, h⟩ := ok_of_bind h
    exact ih (step_proper ha hfirst hc) hrest h

theorem start_proper : Assembly.Proper {} := ⟨Group.new_proper _, List.forall_mem_nil _⟩

theorem finish_ok {e : Expression} (h : a.finish = .ok e) : e = a.inner.all.expression := by
  unfold finish at h
  split at h
  · cases h
  · split at h
    · cases h
    · cases h
      rfl

end Assembly

end SparqlTokens.Pattern
