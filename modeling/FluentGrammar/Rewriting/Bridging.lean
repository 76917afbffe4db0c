import FluentGrammar.Rewriting.Session
import FluentGrammar.Text.CharClass

/-! # Bridging terminals

    After this pass a terminal stands only in front of a derivation. Every other occurrence
    is replaced by a bridge: a new variable that derives just that terminal. Two occurrences
    never share a bridge. A bridge is named after its terminal in capitals.
-/

namespace FluentGrammar

/-- The name wanted for a bridge: what an identifier may hold of the terminal's name, in upper
    case, with a `T` in front unless that begins with a capital. -/
def bridgeSeed (t : Terminal) : String :=
  let kept := t.name.toList.filter (fun c => Text.isAlphanumeric c || c == '_')
  let upper := kept.flatMap Text.toUpper
  String.ofList (if upper.head?.any Text.isUppercase then upper else 'T' :: upper)

/-- A bridge: a variable that holds a place, and the terminal it derives. -/
structure Bridge where
  holder : Variable
  terminal : Terminal

/-- The rule of a bridge. -/
def Bridge.rule (b : Bridge) : Rule :=
  .derivation b.holder [.term b.terminal]

/-- Put bridges in the place of all terminals of a sequence. -/
def bridgeAll (session : Session) : List Symbol → List Symbol × List Bridge × Session
  | [] => ([], [], session)
  | .term t :: rest =>
    let (v, session) := session.take (bridgeSeed t)
    let (symbols, bridges, session) := bridgeAll session rest
    (.var v :: symbols, ⟨v, t⟩ :: bridges, session)
  | .var v :: rest =>
    let (symbols, bridges, session) := bridgeAll session rest
    (.var v :: symbols, bridges, session)

/-- Put bridges in the place of the terminals behind the first position of a rule. -/
def bridgeRule (session : Session) : Rule → Rule × List Bridge × Session
  | .derivation lhs (first :: rest) =>
    let (symbols, bridges, session) := bridgeAll session rest
    (.derivation lhs (first :: symbols), bridges, session)
  | .derivation lhs [] => (.derivation lhs [], [], session)
  | .selection lhs alternatives => (.selection lhs alternatives, [], session)

/-- Put bridges into several rules, one after the other. -/
def bridgeRules (session : Session) : List Rule → List Rule × List Bridge × Session
  | [] => ([], [], session)
  | r :: rest =>
    let (r, bridges, session) := bridgeRule session r
    let (rules, more, session) := bridgeRules session rest
    (r :: rules, bridges ++ more, session)

/-- Put a bridge in the place of every terminal behind the first position. A grammar without
    such terminals comes back as it is. -/
def bridgeTerminals (g : Grammar) (tags : Tagging) : Pass Tagged := do
  let (rules, bridges, session) := bridgeRules (← get) g.rules
  set session
  if bridges.isEmpty then return (g, tags)
  modify (·.count (fun t => { t with bridges := t.bridges + bridges.length }))
  let g ← rebuild g.start (rules ++ bridges.map Bridge.rule)
  return (g, tags.extend (bridges.map (fun b => (b.holder, .bridge))))

end FluentGrammar
