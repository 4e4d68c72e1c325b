import ProtoScript.Main
import ProtoScript.Proofs.Forest
import ProtoScript.Proofs.Hygiene
import ProtoScript.Proofs.Jumps
import ProtoScript.Proofs.Declarations
import ProtoScript.Proofs.Strictness
import ProtoScript.Proofs.TextScopes
import ProtoScript.Proofs.SelfNames
import ProtoScript.Proofs.Tiers
import ProtoScript.Proofs.Constants
import ProtoScript.Proofs.Handles
import ProtoScript.Proofs.Prototypes
import ProtoScript.Proofs.Receivers
import ProtoScript.Proofs.Termination
import ProtoScript.Proofs.StrictPrograms
import ProtoScript.Proofs.StrictTokens
import ProtoScript.Proofs.Spelling.Tokens
import ProtoScript.Proofs.Formula.RoundTrip
import ProtoScript.Proofs.Slots.Coherence
import ProtoScript.Proofs.Slots.Frozen
import ProtoScript.Proofs.Slots.Writes
import ProtoScript.Proofs.Keys.Order
import ProtoScript.Proofs.Keys.Enumeration
import ProtoScript.Proofs.Keys.Snapshot
import ProtoScript.Proofs.Arrays
import ProtoScript.Proofs.Initialization
import ProtoScript.Proofs.Rounds
import ProtoScript.Proofs.Arguments
import ProtoScript.Proofs.Heads
import ProtoScript.Proofs.Places
import ProtoScript.Proofs.Marks
import ProtoScript.Proofs.Modes
import ProtoScript.Proofs.Separators
import ProtoScript.Proofs.Readings
import ProtoScript.Proofs.FunctionTexts
import ProtoScript.Proofs.Layout.Texts
import ProtoScript.Proofs.Layout.Lines
import ProtoScript.Proofs.Radix
import ProtoScript.Proofs.Numerals
import ProtoScript.Proofs.Numerals.Literals
import ProtoScript.Proofs.Wrappers
import ProtoScript.Proofs.Lookahead
import ProtoScript.Proofs.Units
