import Kxo.Lib.Argmax
import Kxo.Lib.BinaryPolynomial
import Kxo.Lib.BitField
import Kxo.Lib.BitSearch
import Kxo.Lib.Bytes
import Kxo.Lib.ContextSwitch
import Kxo.Lib.FailSoft
import Kxo.Lib.LinkedQueue
import Kxo.Lib.Recency
import Kxo.Lib.Reservoir
import Kxo.Lib.Ring
import Kxo.Lib.Terminal
import Kxo.Lib.TransitionSystem
import Kxo.Lib.TreeHeap
import Kxo.Lib.WriteLog
import Kxo.Spec.Game
import Kxo.Game.Board
import Kxo.Game.Lines
import Kxo.Game.Symmetry
import Kxo.Spec.Negamax
import Kxo.Negamax.Zobrist
import Kxo.Negamax.Search
import Kxo.Negamax.Plain
import Kxo.Negamax.DepthTwo
import Kxo.Negamax.Root
import Kxo.Spec.NegamaxCalls
import Kxo.Negamax.Calls
import Kxo.Negamax.Subproblems
import Kxo.Negamax.Windows
import Kxo.Negamax.Wins
import Kxo.Spec.NegamaxInts
import Kxo.Negamax.Boards
import Kxo.Negamax.History
import Kxo.Spec.Mcts
import Kxo.Mcts.Jump
import Kxo.Mcts.Fixed
import Kxo.Mcts.SquareRoot
import Kxo.Mcts.Logarithm
import Kxo.Mcts.Tree
import Kxo.Mcts.Search
import Kxo.Mcts.Credits
import Kxo.Mcts.Conservation
import Kxo.Mcts.Selection
import Kxo.Spec.MctsNodes
import Kxo.Mcts.Allocations
import Kxo.Mcts.Nodes
import Kxo.Spec.Rl
import Kxo.Rl.Values
import Kxo.Rl.Store
import Kxo.Rl.Eviction
import Kxo.Rl.Representation
import Kxo.Rl.Range
import Kxo.Rl.Ties
import Kxo.Rl.Forgetting
import Kxo.Rl.Credit
import Kxo.Agents
import Kxo.Spec.Device
import Kxo.Spec.Driver
import Kxo.Driver.CodeAgents
import Kxo.Driver.Games
import Kxo.Driver.Ownership
import Kxo.Driver.Coherence
import Kxo.Driver.Attr
import Kxo.Driver.Episodes
import Kxo.Driver.Controls
import Kxo.Driver.Rounds
import Kxo.Driver.Flags
import Kxo.Driver.Finished
import Kxo.Driver.Stream
import Kxo.Spec.Init
import Kxo.Spec.Coro
import Kxo.Coro.Scheduler
import Kxo.Coro.Moves
import Kxo.Coro.Waiters
import Kxo.Coro.RunQueue
import Kxo.Coro.Channels
import Kxo.Coro.Wakeups
import Kxo.Coro.Stacks
import Kxo.Coro.Arguments
import Kxo.Spec.Switch
import Kxo.Coro.Switch
import Kxo.Lib.ReadModifyWrite
import Kxo.Spec.Keyboard
import Kxo.Keyboard.Presses
import Kxo.Driver.Opening
import Kxo.Spec.Read
import Kxo.Driver.Reads
import Kxo.Spec.LoadAvg
import Kxo.Driver.LoadAvg
import Kxo.Spec.Tui
import Kxo.Tui.Outbuf
import Kxo.Spec.Screen
import Kxo.Tui.Drawing
import Kxo.Tui.Panels
import Kxo.Tui.Boards
import Kxo.Tui.Records
import Kxo.Spec.Client
import Kxo.Driver.Records
import Kxo.Driver.Learning
import Kxo.Tui.Watch
import Kxo.Spec.Tasks
import Kxo.Coro.Rules
import Kxo.Tui.Rounds
import Kxo.Tui.Tasks
import Kxo.Tui.Atomic
import Kxo.Tui.Progress
