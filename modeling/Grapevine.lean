import Grapevine.Codec.Growth
import Grapevine.Json.Reader
import Grapevine.Json.Writer
import Grapevine.Proofs.Grammar.Duration
import Grapevine.Proofs.Number.Whole
import Grapevine.Proofs.Grammar.Habit
import Grapevine.Proofs.Grammar.Descent
import Grapevine.Proofs.Grammar.Extent
import Grapevine.Proofs.Grammar.Threshold
import Grapevine.Proofs.Shoot.Joints
import Grapevine.Proofs.Shoot.Skeleton
import Grapevine.Proofs.Shoot.Walk
import Grapevine.Proofs.Growth
import Grapevine.Proofs.Number.Nearest
import Grapevine.Proofs.Grammar.Faults
import Grapevine.Proofs.Brackets
import Grapevine.Proofs.Grammar.Balance
import Grapevine.Proofs.Grammar.DepthFirst
import Grapevine.Proofs.Number.Shortest
import Grapevine.Proofs.Number.Text
import Grapevine.Proofs.Token.Written
import Grapevine.Proofs.Token.Spelling
import Grapevine.Proofs.Skeleton.Tree
import Grapevine.Proofs.Walk.Footing
import Grapevine.Proofs.Skeleton.Prune
import Grapevine.Proofs.Walk.Replay
import Grapevine.Proofs.Walk.Stack
import Grapevine.Proofs.Walk.Branch
import Grapevine.Proofs.Grammar.Rounds
import Grapevine.Proofs.Grammar.Lockstep
import Grapevine.Proofs.Grammar.Constants
import Grapevine.Proofs.Grammar.Ranges
import Grapevine.Proofs.Walk.Sizes
import Grapevine.Proofs.Seed
import Grapevine.Proofs.Grammar.Composition
import Grapevine.Proofs.Grammar.Draws
import Grapevine.Proofs.Walk.Guards
import Grapevine.Proofs.Suppression
import Grapevine.Proofs.Walk.Refusal
import Grapevine.Proofs.Partners
import Grapevine.Proofs.Walk.Accounts
import Grapevine.Proofs.Walk.Thinning
import Grapevine.Proofs.Token.Seam
import Grapevine.Proofs.Token.Refusal
import Grapevine.Proofs.Grammar.Lengths
import Grapevine.Proofs.Grammar.MainAxis
import Grapevine.Proofs.Widths
import Grapevine.Proofs.Skeleton.Children
import Grapevine.Proofs.Skeleton.Delivery
import Grapevine.Proofs.Number.Packing
import Grapevine.Proofs.Number.Rounding
import Grapevine.Proofs.Number.Passage
import Grapevine.Proofs.Chance
import Grapevine.Proofs.Grammar.Berries
import Grapevine.Proofs.Codec.Layout
import Grapevine.Proofs.Codec.Stored
import Grapevine.Proofs.Grammar.Registration
