import TreePointer.Address.Composition
import TreePointer.Address.Resolution
import TreePointer.Forest.Description
import TreePointer.Forest.WellFormed
import TreePointer.Proofs.Address.Edges
import TreePointer.Proofs.Address.Elsewhere
import TreePointer.Proofs.Address.TextPreserved
import TreePointer.Proofs.Decoration.Creation
import TreePointer.Proofs.Decoration.Resolution
import TreePointer.Token.Progress
import TreePointer.Proofs.Address.Reference
import TreePointer.Proofs.Address.Failing
import TreePointer.Proofs.Address.Synonyms
import TreePointer.Proofs.Address.Creatable
import TreePointer.Proofs.Address.Reflow
import TreePointer.Proofs.Address.Enclosed
import TreePointer.Proofs.Address.Entries
import TreePointer.Proofs.Address.BesideNodes
import TreePointer.Proofs.Address.Chained
import TreePointer.Proofs.Decoration.WrappedElements
import TreePointer.Proofs.Decoration.WrappedText
import TreePointer.Proofs.Tree.Edited
import TreePointer.Proofs.Decoration.ResolvedElements
import TreePointer.Proofs.Tree.Linear
import TreePointer.Proofs.Tree.Refused
import TreePointer.Proofs.Address.Positions
import TreePointer.Proofs.Address.Sequences
import TreePointer.Proofs.Text.RangeText
import TreePointer.Proofs.Tree.RangeCalls
import TreePointer.Proofs.Token.Peeking
import TreePointer.Proofs.Token.SkippedData
import TreePointer.Proofs.Token.Respelled
import TreePointer.Proofs.Address.LetterCase
import TreePointer.Proofs.Address.Remaining
import TreePointer.Proofs.Tree.Inserted
import TreePointer.Proofs.Decoration.CutText
import TreePointer.Proofs.Address.InnerRoot
import TreePointer.Proofs.Tree.Nearest
import TreePointer.Proofs.Tree.Splicing
import TreePointer.Proofs.Tree.FirstById
import TreePointer.Proofs.Tree.Numbering
import TreePointer.Proofs.Text.Numbered
