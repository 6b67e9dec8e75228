import ParserGen.Main
import ParserGen.Proofs.Automaton.AcceptedFlag
import ParserGen.Proofs.Automaton.ClosureSearch
import ParserGen.Proofs.Automaton.Liveness
import ParserGen.Proofs.Automaton.LongestPrefix
import ParserGen.Proofs.Automaton.Renumbering
import ParserGen.Proofs.Definitions.Registration
import ParserGen.Proofs.Grammar.FollowExact
import ParserGen.Proofs.Grammar.Interning
import ParserGen.Proofs.Grammar.Renaming
import ParserGen.Proofs.Lr.Conflict
import ParserGen.Proofs.Lr.ItemAutomaton
import ParserGen.Proofs.Lr.LeastClosure
import ParserGen.Proofs.Lr.Renaming
import ParserGen.Proofs.Parser.Checked
import ParserGen.Proofs.Parser.FirstError
import ParserGen.Proofs.Parser.Growth
import ParserGen.Proofs.Parser.Reordering
import ParserGen.Proofs.Parser.TwoStacks
import ParserGen.Proofs.Parser.Unambiguous
import ParserGen.Proofs.Pattern.Splitting
import ParserGen.Proofs.Pattern.WellFormed
import ParserGen.Proofs.Session.Restart
import ParserGen.Proofs.Tokenizer.PatternOrder
import ParserGen.Proofs.Transition.EdgeSets
import ParserGen.Grammar.Interner
