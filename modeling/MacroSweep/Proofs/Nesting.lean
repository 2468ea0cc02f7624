import MacroSweep.Walk.File

/-! Lines in which conditional directives nest, as a tree. -/
namespace MacroSweep.Walk

open Source

/-- A line to act on, with the directive that starts there. -/
abbrev Item := Line × Option Directive

/-- Whether a directive opens, divides or closes a group. -/
def Action.isConditional : Action → Bool
  | opening | elif | otherwise | endif => true
  | _ => false

/-- A directive of a given kind, with its line. -/
structure Mark (action : Action) where
  line : Line
  directive : Directive
  kind : Action.ofKeyword directive.keyword = action

/-- A line with no directive or with one that is not conditional. -/
structure Plain where
  line : Line
  directive : Option Directive
  unconditional : ∀ d ∈ directive, (Action.ofKeyword d.keyword).isConditional = false

def Mark.item {action : Action} (m : Mark action) : Item := (m.line, some m.directive)

def Plain.item (p : Plain) : Item := (p.line, p.directive)

mutual

/-- A run of plain lines and groups. -/
inductive Block where
  | done
  | plain (line : Plain) (rest : Block)
  | group (opening : Mark .opening) (body : Block) (others : Branches) (rest : Block)

/-- What follows the first branch of a group: branches with conditions, then a last one without or
none, and the end of the group. -/
inductive Branches where
  | close (endif : Mark .endif)
  | elif (elif : Mark .elif) (body : Block) (others : Branches)
  | otherwise (otherwise : Mark .otherwise) (body : Block) (endif : Mark .endif)

end

mutual

/-- The lines of a block in order. -/
def Block.items : Block → List Item
  | .done => []
  | .plain line rest => line.item :: rest.items
  | .group opening body others rest => opening.item :: (body.items ++ (others.items ++ rest.items))

def Branches.items : Branches → List Item
  | .close endif => [endif.item]
  | .elif elif body others => elif.item :: (body.items ++ others.items)
  | .otherwise otherwise body endif => otherwise.item :: (body.items ++ [endif.item])

end

mutual

/-- The numbers of the lines that open groups. -/
def Block.openings : Block → List Nat
  | .done => []
  | .plain _ rest => rest.openings
  | .group opening body others rest =>
    opening.line.number :: (body.openings ++ (others.openings ++ rest.openings))

def Branches.openings : Branches → List Nat
  | .close _ => []
  | .elif _ body others => body.openings ++ others.openings
  | .otherwise _ body _ => body.openings

end

mutual

theorem Block.openings_sublist : (b : Block) → b.openings.Sublist (b.items.map (·.1.number))
  | .done => .slnil
  | .plain line rest => .cons _ rest.openings_sublist
  | .group opening body others rest => by
    simp only [Block.openings, Block.items, List.map_cons, List.map_append]
    exact .cons_cons _ (body.openings_sublist.append
      (others.openings_sublist.append rest.openings_sublist))

theorem Branches.openings_sublist : (b : Branches) → b.openings.Sublist (b.items.map (·.1.number))
  | .close _ => List.nil_sublist _
  | .elif elif body others => by
    simp only [Branches.openings, Branches.items, List.map_cons, List.map_append]
    exact .cons _ (body.openings_sublist.append others.openings_sublist)
  | .otherwise otherwise body endif => by
    simp only [Branches.openings, Branches.items, List.map_cons, List.map_append]
    exact .cons _ (body.openings_sublist.trans (List.sublist_append_left _ _))

end

end MacroSweep.Walk
