import Kxo.Spec.Game

/-!
# Kxo — the MCTS agent (`src/mcts.c`, `src/xoroshiro.c`)

`fixed_point_t` and `u64` values are `Nat`s reduced modulo their width wherever the C arithmetic
could leave it. The tree is a value: a node owns the list of its children, and the path that the C
code follows back through `parent` is the list of child positions from the root.

Memory allocation succeeds. `kxo_stop_work`, which the driver may raise at any time, is read once
per iteration; its values are a parameter.
-/

namespace Kxo

/-! ## `xoroshiro.c` -/

structure StateArray where
  s0 : U64
  s1 : U64
  deriving DecidableEq, Repr

def rotl (x : U64) (k : Nat) : U64 := (x <<< k) ||| (x >>> (64 - k))

def xoroNext (obj : StateArray) : U64 × StateArray :=
  let result := rotl (obj.s0 + obj.s1) 24 + obj.s0
  let s1 := obj.s1 ^^^ obj.s0
  (result, ⟨rotl obj.s0 24 ^^^ s1 ^^^ (s1 <<< 16), rotl s1 37⟩)

def jump : List U64 := [0xdf900294d8f554a5, 0x170865df4b3201fc]

/-- The bits of `JUMP` in the order the two loops of `xoro_jump` test them. -/
def jumpBits : List Bool := jump.flatMap fun word => (List.range 64).map word.getLsbD

/-- One round of `xoro_jump`: the accumulated words, then the generator. -/
def jumpStep (acc : StateArray × StateArray) (bit : Bool) : StateArray × StateArray :=
  let (sum, obj) := acc
  (if bit then ⟨sum.s0 ^^^ obj.s0, sum.s1 ^^^ obj.s1⟩ else sum, (xoroNext obj).2)

def xoroJump (obj : StateArray) : StateArray := (jumpBits.foldl jumpStep (⟨0, 0⟩, obj)).1

def xoroInit : StateArray := ⟨314159265, 1618033989⟩

/-! ## Fixed point -/

def fixedMax : Nat := 2 ^ 32 - 1

def getSign (x : Nat) : Nat := x &&& 2 ^ 31

def setSign (x : Nat) : Nat := x ||| 2 ^ 31

def clrSign (x : Nat) : Nat := x &&& (2 ^ 31 - 1)

/-- Subtraction of `unsigned`s. -/
def fixedSub (a b : Nat) : Nat := (a + 2 ^ 32 - b) % 2 ^ 32

/-- The loop of `fixed_sqrt`: bit `i` of the root is decided with `i` bits below it to go. -/
def fixedSqrtLoop (x : Nat) : Nat → Nat → Nat
  | 0, s => s
  | i + 1, s =>
      let t := 2 ^ i
      let candidate := (s + t) % 2 ^ 64
      if candidate * candidate % 2 ^ 64 / 2 ^ fixedScaleBits ≤ x then
        fixedSqrtLoop x i ((s + t) % 2 ^ 32)
      else fixedSqrtLoop x i s

/-- `fixed_sqrt`; `31 - __builtin_clz(x | 1)` is the position of the highest bit of `x | 1`. -/
def fixedSqrt (x : Nat) : Nat :=
  if x = 0 ∨ x = fixedOne then x else fixedSqrtLoop x ((x ||| 1).log2 + 1) 0

/-- The inner loop of `fixed_log`: `y` to the power `j`. -/
def fixedPow (y : Nat) : Nat → Nat
  | 0 => fixedOne
  | j + 1 => fixedPow y j * y / 2 ^ fixedScaleBits % 2 ^ 32

/-- One term of the series of `fixed_log`. -/
def fixedLogTerm (y i : Nat) : Nat :=
  fixedPow y i * 2 ^ fixedScaleBits / (i * 2 ^ fixedScaleBits) % 2 ^ 32

/-- The values of `for (unsigned i = 1; i < 20; i += 2)`. -/
def fixedLogExponents : List Nat := [1, 3, 5, 7, 9, 11, 13, 15, 17, 19]

def fixedLog (v : Nat) : Nat :=
  if v = 0 ∨ v = fixedOne then 0
  else
    let numerator := fixedSub v fixedOne
    let neg := getSign numerator ≠ 0
    let numerator := if getSign numerator ≠ 0 then fixedSub (2 ^ 31) (clrSign numerator)
      else numerator
    let y := numerator * 2 ^ fixedScaleBits / (v + fixedOne) % 2 ^ 32
    let ans := fixedLogExponents.foldl (fun ans i => (ans + fixedLogTerm y i) % 2 ^ 32) 0
    let ans := ans * 2 % 2 ^ 32
    if neg then setSign ans else ans

def explorationFactor : Nat := fixedSqrt (2 ^ (fixedScaleBits + 1))

def uctScore (nTotal nVisits score : Nat) : Nat :=
  if nVisits = 0 then fixedMax
  else
    let result := score / nVisits % 2 ^ 32
    let logVal := fixedLog (if nTotal < 65536 then nTotal * 2 ^ fixedScaleBits % 2 ^ 32
      else fixedMax)
    let tmp := explorationFactor * fixedSqrt (logVal / nVisits) / 2 ^ fixedScaleBits % 2 ^ 32
    (result + tmp) % 2 ^ 32

/-! ## The tree -/

/-- `struct node`. The empty slots of `children` are at its end and left out. -/
inductive Node where
  | mk (move : Int) (player : Player) (nVisits score : Nat) (children : List Node)

namespace Node

def move : Node → Int
  | mk move _ _ _ _ => move

def player : Node → Player
  | mk _ player _ _ _ => player

def nVisits : Node → Nat
  | mk _ _ nVisits _ _ => nVisits

def score : Node → Nat
  | mk _ _ _ score _ => score

def children : Node → List Node
  | mk _ _ _ _ children => children

def setChildren : Node → List Node → Node
  | mk move player nVisits score _, children => mk move player nVisits score children

/-- `n_visits++; score += score`. -/
def credit : Node → Nat → Node
  | mk move player nVisits total children, score =>
      mk move player (nVisits + 1) ((total + score) % 2 ^ 64) children

end Node

/-- `new_node`, on `kzalloc`ed memory. -/
def newNode (move : Int) (player : Player) : Node := .mk move player 0 0 []

structure MctsInfo where
  xoroObj : StateArray
  nrActiveNodes : Nat
  deriving DecidableEq

/-- `expand`: the node with its new children, and their number. -/
def expand (node : Node) (table : U32) : Node × Nat :=
  let moves := availableMoves table
  (node.setChildren (moves.map fun (m : Nat) => newNode m node.player.opp), moves.length)

/-- The loop of `select_move`, from child `i` on. -/
def selectLoop (nTotal : Nat) : List Node → Nat → Nat → Option Nat → Option Nat
  | [], _, _, bestNode => bestNode
  | child :: rest, i, bestScore, bestNode =>
      let score := uctScore nTotal child.nVisits child.score
      if bestScore < score then selectLoop nTotal rest (i + 1) score (some i)
      else selectLoop nTotal rest (i + 1) bestScore bestNode

/-- `select_move`: the position of the chosen child, `none` for `NULL`. -/
def selectMove (node : Node) : Option Nat := selectLoop node.nVisits node.children 0 0 none

/-- The loop of `simulate`: the outcome of the playout, `none` inside when no cell was left to
play, and `none` outside when the fuel ran out. -/
def simulateLoop : Nat → U32 → Player → StateArray → Option (Option U32 × StateArray)
  | 0, _, _, _ => none
  | fuel + 1, table, currentPlayer, rng =>
      let moves := availableMoves table
      if moves = [] then some (none, rng)
      else
        let (r, rng) := xoroNext rng
        let move := moves.getD (r.toNat % moves.length) 0
        let table := valSetCell table move currentPlayer.cell
        if checkWin table ≠ cellEmpty then some (some (checkWin table), rng)
        else simulateLoop fuel table currentPlayer.opp rng

/-- `simulate`: its score, the playout's outcome and the generator it leaves. -/
def simulate (table : U32) (player : Player) (rng : StateArray) :
    Option (Nat × Option U32 × StateArray) :=
  match simulateLoop (nGrids + 1) table player (xoroJump rng) with
  | none => none
  | some (some win, rng) => some (calculateWinValue win player, some win, rng)
  | some (none, rng) => some (2 ^ (fixedScaleBits - 1), none, rng)

/-- `backpropagate`, along a path of child positions from a node to the leaf: the node, and the
score handed on to its parent. -/
def backpropagate : Node → List Nat → Nat → Node × Nat
  | node, [], score => (node.credit score, fixedSub fixedOne score)
  | node, i :: path, score =>
      match node.children[i]? with
      | none => (node, score)
      | some child =>
          let (child, score) := backpropagate child path score
          ((node.setChildren (node.children.set i child)).credit score, fixedSub fixedOne score)

/-- What the inner loop of `mcts` ends with: the tree with the nodes it added, the path to the leaf,
the score it starts `backpropagate` with, the line's outcome and whether the leaf itself is a
finished board. -/
structure Playout where
  tree : Node
  path : List Nat
  score : Nat
  win : Option U32
  terminal : Bool
  info : MctsInfo

/-- The inner loop of `mcts`: out of fuel, ended by a `NULL` selection, or at a leaf. -/
inductive Walk where
  | outOfFuel
  | null
  | leaf (playout : Playout)

/-- The inner loop of `mcts`, from `node` with `temp_table = table`. -/
def descend : Nat → Node → U32 → MctsInfo → Walk
  | 0, _, _, _ => .outOfFuel
  | fuel + 1, node, table, info =>
      let win := checkWin table
      if win ≠ cellEmpty then
        .leaf ⟨node, [], calculateWinValue win node.player.opp, some win, true, info⟩
      else if node.nVisits = 0 then
        match simulate table node.player info.xoroObj with
        | none => .outOfFuel
        | some (score, win, rng) =>
          .leaf ⟨node, [], score, win, false, { info with xoroObj := rng }⟩
      else
        let (node, added) := if node.children = [] then expand node table else (node, 0)
        let info := { info with nrActiveNodes := info.nrActiveNodes + added }
        match selectMove node with
        | none => .null
        | some i =>
            match node.children[i]? with
            | none => .null
            | some child =>
                let table := valSetCell table child.move.toNat child.player.opp.cell
                match descend fuel child table info with
                | .outOfFuel => .outOfFuel
                | .null => .null
                | .leaf playout =>
                    .leaf { playout with
                      tree := node.setChildren (node.children.set i playout.tree)
                      path := i :: playout.path }

/-- One iteration of `mcts` without its `backpropagate`; a line has at most `N_GRIDS` moves. -/
def selectLeaf (root : Node) (table : U32) (info : MctsInfo) : Walk :=
  descend (nGrids + 1) root table info

/-- The tree after the iteration. -/
def Playout.backpropagated (playout : Playout) : Node :=
  (backpropagate playout.tree playout.path playout.score).1

/-- How the iterations end: the fuel of a line ran out, a selection was `NULL`, or the tree. -/
inductive Search where
  | outOfFuel
  | null (info : MctsInfo)
  | done (root : Node) (info : MctsInfo)

/-- The outer loop of `mcts`: `n` iterations to go, `stop i` what iteration `i` reads from
`kxo_stop_work`. -/
def mctsLoop (stop : Nat → Bool) (table : U32) : Nat → Nat → Node → MctsInfo → Search
  | 0, _, root, info => .done root info
  | n + 1, i, root, info =>
      if stop i then .done root info
      else
        match selectLeaf root table info with
        | .outOfFuel => .outOfFuel
        | .null => .null info
        | .leaf playout => mctsLoop stop table n (i + 1) playout.backpropagated playout.info

def iterations : Nat := 100000

/-- The last loop of `mcts`: the move of the first child with the most visits. -/
def bestMove : List Node → Int → Int → Int
  | [], _, best => best
  | child :: rest, mostVisits, best =>
      if mostVisits < child.nVisits then bestMove rest child.nVisits child.move
      else bestMove rest mostVisits best

/-- `mcts`; `none` when a line's fuel ran out. -/
def mcts (stop : Nat → Bool) (table : U32) (player : Player) (info : MctsInfo) :
    Option (Int × MctsInfo) :=
  match mctsLoop stop table iterations 0 (newNode (-1) player) { info with nrActiveNodes := 1 } with
  | .outOfFuel => none
  | .null info => some (-1, info)
  | .done root info => some (bestMove root.children (-1) root.move, info)

def mctsInit : MctsInfo := ⟨xoroInit, 0⟩

end Kxo
