import Cassette.Proofs.Acia.Turn
import Cassette.Proofs.BitLoop.Periodic
import Cassette.Proofs.Board.Countdown
import Cassette.Proofs.Board.Draining
import Cassette.Proofs.Board.Ejection
import Cassette.Proofs.Board.History
import Cassette.Proofs.Board.Isolation
import Cassette.Proofs.Board.Relatching
import Cassette.Proofs.Board.Silence
import Cassette.Proofs.Scheduler.Bystander
import Cassette.Proofs.Scheduler.Chronicle
import Cassette.Proofs.Scheduler.Ending
import Cassette.Proofs.Tape.Items
import Cassette.Proofs.Tape.Rewinding
import Cassette.Proofs.Tape.Soundness
import Cassette.Proofs.Uef.Formats
import Cassette.Proofs.Uef.Spelling
