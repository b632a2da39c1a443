import TaskjugglerLsp.Grammar.Shapes
import TaskjugglerLsp.Lib.SyntaxTree

/-!
# The statements of a document

What a syntax tree says, as far as the actions of the grammar see it: its declarations, references,
dates, prefixes and includes, each with the statements of its body.  `Stmt.exec` does what the
actions do, one statement after the other.

* `Stmt.exec`: what a statement does to the variables of the grammar.
* `Tree.stmts`: the statements of a tree.
-/

namespace TaskjugglerLsp

open Lib.Lr

/-- A syntax tree of the grammar. -/
abbrev SynTree := Tree NonTerm SemAction Yystype

/-- **Statements**.  A declaration has the tokens of its keyword, its id and its name, its body,
and the end of that; `symbol` is a task, a resource or an account.  `kind` is the direction of the
references after it.  `top` is an item of the file, `block` is a body of another statement, and
what error recovery has taken apart.  There `opened` and `included` are what remains of a
declaration or an include whose body is not closed. -/
inductive Stmt where
  | reset
  | top (item : List Stmt)
  | project (kw id name : Token) (body : List Stmt) (stop : LspPos)
  | symbol (kw id name : Token) (body : List Stmt) (stop : LspPos)
  | declare (kw id name : Token) (body : List Stmt) (stop : LspPos)
  | kind (kind : DepKind)
  | ref (bangs segs : List Token) (body : List Stmt)
  | startDate (date : Token)
  | endDate (date : Token)
  | pref (kind : PrefixKind) (value : CStr)
  | incl (file : Token) (body : List Stmt)
  | block (body : List Stmt)
  | opened (kw id name : Token)
  | included

namespace Stmt

/-- The statements in a statement. -/
def body : Stmt → List Stmt
  | top body | project _ _ _ body _ | symbol _ _ _ body _ | declare _ _ _ body _ | ref _ _ body
  | incl _ body | block body => body
  | _ => []

theorem sizeOf_body {st c : Stmt} (h : c ∈ st.body) : sizeOf c < sizeOf st := by
  cases st <;> first
    | exact absurd h List.not_mem_nil
    | exact (List.sizeOf_lt_of_mem h).trans (by simp +arith [body])

theorem induct {P : Stmt → Prop} (h : ∀ st, (∀ c ∈ st.body, P c) → P st) (st : Stmt) : P st :=
  h st fun c _ => induct h c
termination_by st
decreasing_by exact sizeOf_body ‹_›

end Stmt

/-- The path of a reference. -/
def pathText : List Token → Option CStr
  | [] => none
  | [seg] => seg.text
  | seg :: segs => some (segs.foldl (fun path seg => path ++ 46 :: seg.text.getD [])
      (seg.text.getD []))

/-- The value of a reference: its range is that of the path. -/
def taskRefOf (bangs segs : List Token) : TaskRef :=
  ⟨bangs.length, pathText segs, (segs.head?.getD Token.zero).start,
    (segs.getLast?.getD Token.zero).stop⟩

/-! ### What statements do -/

namespace Stmt

mutual

/-- **What a statement does**, and the declaration that it is. -/
def exec : Stmt → GrammarState → GrammarState × List ℕ
  | reset, s => ({ s with symStack := [] }, [])
  | top item, s =>
    let (s, syms) := execAll item s
    (syms.foldl GrammarState.routeTopLevel s, [])
  | project kw id name body stop, s =>
    let (s, syms) := execAll body s
    let (s, a) := s.allocTjNode kw id name
    ((s.setRangeEnd a (rangeEnd kw ⟨syms, stop⟩)).hoist syms, [a])
  | symbol kw id name body stop, s =>
    let (s, a) := s.allocTjNode kw id name
    let (s, syms) := execAll body (if kw.kind = kwTask then s.symStackPush a else s)
    let s := if kw.kind = kwTask then s.symStackPop else s
    (s.finishTjNode a kw ⟨syms, stop⟩, [a])
  | declare kw id name body stop, s =>
    let (s, syms) := execAll body s
    let (s, a) := s.allocTjNode kw id name
    (s.finishTjNode a kw ⟨syms, stop⟩, [a])
  | kind k, s => ({ s with pendingDepKind := k }, [])
  | ref bangs segs body, s => ((execAll body s).1.captureDep (taskRefOf bangs segs), [])
  | startDate date, s => (s.captureDate date fun t c => { c with startDate := some t }, [])
  | endDate date, s => (s.captureDate date fun t c => { c with endDate := some t }, [])
  | pref k value, s => (s.setPendingPrefix k value, [])
  | incl file body, s =>
    let s := (execAll body { s with inIncludeDepth := s.inIncludeDepth + 1 }).1
    let s := { s with inIncludeDepth := s.inIncludeDepth - 1 }
    ({ s.pushInclude file.text with pendingPrefixes := noPrefixes }, [])
  | block body, s => ((execAll body s).1, [])
  | opened kw id name, s =>
    let (s, a) := s.allocTjNode kw id name
    (if kw.kind = kwTask then s.symStackPush a else s, [])
  | included, s => ({ s with inIncludeDepth := s.inIncludeDepth + 1 }, [])

/-- What statements do one after the other, and the declarations among them. -/
def execAll : List Stmt → GrammarState → GrammarState × List ℕ
  | [], s => (s, [])
  | st :: sts, s =>
    let out := exec st s
    let rest := execAll sts out.1
    (rest.1, out.2 ++ rest.2)

end

theorem execAll_append (sts more : List Stmt) (s : GrammarState) :
    execAll (sts ++ more) s = ((execAll more (execAll sts s).1).1,
      (execAll sts s).2 ++ (execAll more (execAll sts s).1).2) := by
  induction sts generalizing s with
  | nil => rfl
  | cons st sts ih => rw [List.cons_append, execAll, execAll, ih, List.append_assoc]

theorem execAll_singleton (st : Stmt) (s : GrammarState) : execAll [st] s = st.exec s := by
  rw [execAll, execAll, List.append_nil]

end Stmt

/-! ### The statements of a tree -/

/-- The statements in a body. -/
def unblock : List Stmt → List Stmt
  | [.block body] => body
  | _ => []

/-- Nothing is in this state. -/
def GrammarState.blank : GrammarState := ⟨[], [], 0, noPrefixes, .depends, []⟩

namespace Lib.Lr.Tree

mutual

/-- The value of a tree, up to the declarations in it. -/
def static : SynTree → Yystype
  | .leaf _ v => v
  | .lost _ v _ => v
  | .node p children => (p.action.code.run (staticEach children) .blank).2

def staticEach : List SynTree → List Yystype
  | [] => []
  | t :: ts => static t :: staticEach ts

end

/-- The tokens of a tree that are not of some kind. -/
def tokensBut (t : SynTree) (kind : ℕ) : List Token :=
  (t.yield.filter fun tok => tok.1 != kind).map fun tok => tok.2.asTok

/-- The bangs and the segments of a reference. -/
def refParts : SynTree → List Token × List Token
  | .node _ [bangs, path] => (bangs.tokensBut tkEol, path.tokensBut tkDot)
  | _ => ([], [])

/-- The statements of a production, from the values below it, its children, and the statements of
these. -/
def nodeStmts (code : ActionCode) (children : List SynTree) (args : List Yystype)
    (parts : List (List Stmt)) : List Stmt :=
  let tok := fun i => (dollar args i).asTok
  let body := fun i => unblock (parts.getD (i - 1) [])
  match code with
  | .resetSymStack => [.reset]
  | .routeItem => parts.getD 0 [] ++ [.top (parts.getD 1 [])]
  | .startDate => [.startDate (tok 2)]
  | .endDate => [.endDate (tok 2)]
  | .setPrefix kind => [.pref kind (dollar args 2).asText]
  | .pendingDepKind kind => [.kind kind]
  | .projectDecl => [.project (tok 1) (tok 2) (tok 3) (body 6) (dollar args 6).asBody.stop]
  | .openSymbol => [.opened (tok 1) (tok 2) (tok 3)]
  | .closeSymbol => [.symbol (tok 1) (tok 2) (tok 3) (body 5) (dollar args 5).asBody.stop]
  | .declare id name i =>
    let arg := fun (i : Option ℕ) => i.elim Token.zero tok
    [.declare (tok 1) (arg id) (arg name) (body i) (dollar args i).asBody.stop]
  | .openInclude => [.included]
  | .closeInclude => [.incl (tok 2) (body 4)]
  | .depRef =>
    match children with
    | ref :: _ => [.ref ref.refParts.1 ref.refParts.2 (body 2)]
    | [] => []
  | .closeBody => [.block (parts.getD 1 [])]
  | _ => parts.flatten

mutual

/-- **The statements of a tree**; an action in the middle of a production sees the values below
it. -/
def stmts : SynTree → List Yystype → List Stmt
  | .leaf _ _, _ => []
  | .lost _ _ parts, below => [.block (stmtsEach parts below).flatten]
  | .node p children, below =>
    nodeStmts p.action.code children
      (((staticEach children).reverse ++ below).take p.action.reach).reverse
      (stmtsEach children below)

/-- The statements of each of some trees. -/
def stmtsEach : List SynTree → List Yystype → List (List Stmt)
  | [], _ => []
  | t :: ts, below => stmts t below :: stmtsEach ts (static t :: below)

end

end Lib.Lr.Tree

end TaskjugglerLsp
