import Piecework.Proofs.Json.Scalars

/-!
# JSON text read back

The text of a value, in front of anything that may stand behind a value, is read as the
tree of the value and leaves what stands behind it. The induction goes along the value, and
for lists and records along the rest of their items or members, each behind its comma. The
budget of a scan is spent twice as slowly as characters are read, so it lasts.
-/

namespace Piecework.Json

mutual

/-- The tree of a value's text. -/
def node : Json → Node
  | null => .null
  | bool b => .bool b
  | integer i => .number (.integer i)
  | text s => .text (.ok s)
  | list items => .list (itemNodes items) none
  | record members => .record (memberNodes members) none

/-- The trees of the items of a list. -/
def itemNodes : List Json → List Node
  | [] => []
  | v :: rest => node v :: itemNodes rest

/-- The names of the members of a record and the trees of their values. -/
def memberNodes : List (String × Json) → List (Except Fault String × Node)
  | [] => []
  | (k, v) :: rest => (.ok k, node v) :: memberNodes rest

end

mutual

/-- Every integer in a value is short. -/
def AllShort : Json → Prop
  | integer i => IsShort i
  | list items => ItemsShort items
  | record members => MembersShort members
  | _ => True

/-- Every integer in the items of a list is short. -/
def ItemsShort : List Json → Prop
  | [] => True
  | v :: rest => AllShort v ∧ ItemsShort rest

/-- Every integer in the members of a record is short. -/
def MembersShort : List (String × Json) → Prop
  | [] => True
  | (_, v) :: rest => AllShort v ∧ MembersShort rest

end

/-! ## What stands behind an item or a member -/

/-- The characters of further items, each behind its comma. -/
def furtherItems : List Json → List Char
  | [] => []
  | v :: rest => ',' :: renderItems (v :: rest)

/-- The characters of further members, each behind its comma. -/
def furtherMembers : List (String × Json) → List Char
  | [] => []
  | m :: rest => ',' :: renderMembers (m :: rest)

theorem renderItems_cons (v : Json) (rest : List Json) :
    renderItems (v :: rest) = v.render ++ furtherItems rest := by
  cases rest <;> simp [renderItems, furtherItems]

theorem renderMembers_cons (k : String) (v : Json) (rest : List (String × Json)) :
    renderMembers ((k, v) :: rest) = quote k ++ ':' :: (v.render ++ furtherMembers rest) := by
  cases rest <;> simp [renderMembers, furtherMembers]

/-- A list goes on with a comma or ends. -/
theorem isBehindValue_furtherItems (items : List Json) (rest : List Char) :
    IsBehindValue (furtherItems items ++ ']' :: rest) := by
  cases items <;> simp [IsBehindValue, furtherItems]

/-- A record goes on with a comma or ends. -/
theorem isBehindValue_furtherMembers (members : List (String × Json)) (rest : List Char) :
    IsBehindValue (furtherMembers members ++ '\x7d' :: rest) := by
  cases members <;> simp [IsBehindValue, furtherMembers]

/-- A value starts with a character that is neither a space nor the end of a list. -/
theorem exists_render_eq_cons (v : Json) :
    ∃ c cs, v.render = c :: cs ∧ isSpace c = false ∧ c ≠ ']' := by
  cases v with
  | null => exact ⟨'n', _, by rw [render], by decide, by decide⟩
  | bool b => cases b <;> exact ⟨_, _, by rw [render], by decide, by decide⟩
  | integer i =>
    rw [render, Decimal.signedDigits]
    split
    · exact ⟨'-', _, rfl, by decide, by decide⟩
    · obtain ⟨c, ds, hcs, hdigit, _⟩ :=
        Decimal.exists_cons_of_isNumeral (Decimal.isNumeral_digits i.natAbs)
      exact ⟨c, ds, hcs, isSpace_of_isDigit hdigit, Decimal.ne_of_isDigit hdigit (by decide)⟩
  | text s => exact ⟨'"', _, by rw [render]; rfl, by decide, by decide⟩
  | list items => exact ⟨'[', _, by rw [render]; rfl, by decide, by decide⟩
  | record members => exact ⟨'\x7b', _, by rw [render]; rfl, by decide, by decide⟩

/-- A budget of twice the characters of a value is at least two. -/
theorem exists_fuel (v : Json) {fuel : Nat} (h : 2 * v.render.length ≤ fuel) :
    ∃ f, fuel = f + 2 := by
  obtain ⟨c, cs, hcs, _⟩ := exists_render_eq_cons v
  rw [hcs, List.length_cons] at h
  exact ⟨fuel - 2, by omega⟩

/-- The first item of a list is read at once. -/
theorem scanItems_render (v : Json) (fuel : Nat) (cs : List Char) :
    scanItems (fuel + 1) true (v.render ++ cs) = scanItem fuel (v.render ++ cs) := by
  obtain ⟨c, ds, hds, hspace, hend⟩ := exists_render_eq_cons v
  simp [hds, scanItems, skipSpace, hspace, hend]

/-- An item and what follows it make up the rest of a list. -/
theorem scanItem_of_scan {fuel : Nat} {cs rest : List Char} {n : Node} {ns : List Node}
    {atEnd : Option Fault} {behind : Option (List Char)} (hv : scan fuel cs = (n, some rest))
    (hrest : scanItems fuel false rest = (ns, atEnd, behind)) :
    scanItem (fuel + 1) cs = (n :: ns, atEnd, behind) := by
  simp [scanItem, hv, hrest]

/-- A member and what follows it make up the rest of a record. -/
theorem scanMember_of_scan (k : String) {fuel : Nat} {cs rest : List Char} {n : Node}
    {ms : List (Except Fault String × Node)} {atEnd : Option Fault} {behind : Option (List Char)}
    (hv : scan fuel cs = (n, some rest))
    (hrest : scanMembers fuel false rest = (ms, atEnd, behind)) :
    scanMember (fuel + 1) (k.toList.flatMap escape ++ '"' :: ':' :: cs) =
      ((.ok k, n) :: ms, atEnd, behind) := by
  simp [scanMember, quoted_escape, skipSpace, isSpace, hv, hrest]

/-! ## Values -/

mutual

/-- A value is read as its tree in front of anything that may stand behind a value. -/
theorem scan_render : ∀ (v : Json), v.AllShort → ∀ (fuel : Nat) (rest : List Char),
    2 * v.render.length ≤ fuel → IsBehindValue rest →
      scan fuel (v.render ++ rest) = (v.node, some rest)
  | null, _, fuel, rest, hfuel, _ => by
    obtain ⟨f, rfl⟩ := exists_fuel null hfuel
    simp [render, node, scan, skipSpace, isSpace, literal]
  | bool b, _, fuel, rest, hfuel, _ => by
    obtain ⟨f, rfl⟩ := exists_fuel (bool b) hfuel
    cases b <;> simp [render, node, scan, skipSpace, isSpace, literal]
  | integer i, h, fuel, rest, hfuel, hrest => by
    obtain ⟨f, rfl⟩ := exists_fuel (integer i) hfuel
    rw [render, node]
    exact scan_integer h hrest (f + 1)
  | text s, _, fuel, rest, hfuel, _ => by
    obtain ⟨f, rfl⟩ := exists_fuel (text s) hfuel
    simp [render, node, quote, scan, skipSpace, isSpace, quoted_escape]
  | list [], _, fuel, rest, hfuel, _ => by
    obtain ⟨f, rfl⟩ := exists_fuel (list []) hfuel
    simp [render, renderItems, node, itemNodes, scan, scanItems, skipSpace, isSpace]
  | list (v :: items), h, fuel, rest, hfuel, _ => by
    obtain ⟨hv, hitems⟩ := h
    rw [render, renderItems_cons] at hfuel ⊢
    simp only [List.length_append, List.length_cons, List.length_nil] at hfuel
    -- The bracket, the row of items and the first of them each take one call.
    obtain ⟨f, rfl⟩ : ∃ f, fuel = f + 3 := ⟨fuel - 3, by omega⟩
    have hfirst := scan_render v hv f (furtherItems items ++ ']' :: rest) (by omega)
      (isBehindValue_furtherItems items rest)
    have hfurther := scanItems_furtherItems items hitems f rest (by omega)
    have hall := (scanItems_render v (f + 1) _).trans (scanItem_of_scan hfirst hfurther)
    simp [scan, skipSpace, isSpace, hall, node, itemNodes]
  | record [], _, fuel, rest, hfuel, _ => by
    obtain ⟨f, rfl⟩ := exists_fuel (record []) hfuel
    simp [render, renderMembers, node, memberNodes, scan, scanMembers, skipSpace, isSpace]
  | record ((k, v) :: members), h, fuel, rest, hfuel, _ => by
    obtain ⟨hv, hmembers⟩ := h
    rw [render, renderMembers_cons, quote] at hfuel ⊢
    simp only [List.length_append, List.length_cons, List.length_nil] at hfuel
    obtain ⟨f, rfl⟩ : ∃ f, fuel = f + 3 := ⟨fuel - 3, by omega⟩
    have hfirst := scan_render v hv f (furtherMembers members ++ '\x7d' :: rest) (by omega)
      (isBehindValue_furtherMembers members rest)
    have hfurther := scanMembers_furtherMembers members hmembers f rest (by omega)
    have hall := scanMember_of_scan k hfirst hfurther
    simp [scan, scanMembers, skipSpace, isSpace, hall, node, memberNodes]

/-- Further items are read up to the closing bracket. -/
theorem scanItems_furtherItems : ∀ (items : List Json), ItemsShort items →
    ∀ (fuel : Nat) (rest : List Char), 2 * (furtherItems items).length < fuel →
      scanItems fuel false (furtherItems items ++ ']' :: rest) = (itemNodes items, none, some rest)
  | [], _, fuel, rest, hfuel => by
    obtain ⟨f, rfl⟩ := Nat.exists_eq_add_of_lt hfuel
    simp [furtherItems, itemNodes, scanItems, skipSpace, isSpace]
  | v :: items, h, fuel, rest, hfuel => by
    obtain ⟨hv, hitems⟩ := h
    rw [furtherItems, renderItems_cons] at hfuel ⊢
    simp only [List.length_append, List.length_cons] at hfuel
    obtain ⟨f, rfl⟩ : ∃ f, fuel = f + 2 := ⟨fuel - 2, by omega⟩
    have hfirst := scan_render v hv f (furtherItems items ++ ']' :: rest) (by omega)
      (isBehindValue_furtherItems items rest)
    have hfurther := scanItems_furtherItems items hitems f rest (by omega)
    have hall := scanItem_of_scan hfirst hfurther
    simp [scanItems, skipSpace, isSpace, hall, itemNodes]

/-- Further members are read up to the closing brace. -/
theorem scanMembers_furtherMembers : ∀ (members : List (String × Json)), MembersShort members →
    ∀ (fuel : Nat) (rest : List Char), 2 * (furtherMembers members).length < fuel →
      scanMembers fuel false (furtherMembers members ++ '\x7d' :: rest) =
        (memberNodes members, none, some rest)
  | [], _, fuel, rest, hfuel => by
    obtain ⟨f, rfl⟩ := Nat.exists_eq_add_of_lt hfuel
    simp [furtherMembers, memberNodes, scanMembers, skipSpace, isSpace]
  | (k, v) :: members, h, fuel, rest, hfuel => by
    obtain ⟨hv, hmembers⟩ := h
    rw [furtherMembers, renderMembers_cons, quote] at hfuel ⊢
    simp only [List.length_append, List.length_cons, List.length_nil] at hfuel
    obtain ⟨f, rfl⟩ : ∃ f, fuel = f + 2 := ⟨fuel - 2, by omega⟩
    have hfirst := scan_render v hv f (furtherMembers members ++ '\x7d' :: rest) (by omega)
      (isBehindValue_furtherMembers members rest)
    have hfurther := scanMembers_furtherMembers members hmembers f rest (by omega)
    have hall := scanMember_of_scan k hfirst hfurther
    simp [scanMembers, skipSpace, isSpace, hall, memberNodes]

end

/-- The text of a value is read as its tree, and nothing is left. -/
theorem document_compact {v : Json} (h : v.AllShort) : document v.compact = (v.node, some []) := by
  have hlength : (String.ofList v.render).length = v.render.length := by simp
  have hread := scan_render v h (4 * v.render.length + 4) [] (by omega) (by simp [IsBehindValue])
  rw [List.append_nil] at hread
  rw [document, compact, hlength, String.toList_ofList, hread]

/-- What is read from the whole text of a value is read from its tree. -/
theorem readWhole_compact {α : Type} (read : Node → Except DecodeError α) {v : Json}
    (h : v.AllShort) : readWhole read v.compact = read v.node := by
  rw [readWhole, document_compact h]
  cases hread : read v.node <;> simp [hread, skipSpace]

end Piecework.Json
