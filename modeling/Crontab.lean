import Crontab.Calendar
import Crontab.Calendar.DayCount
import Crontab.CivilMinute
import Crontab.Direction
import Crontab.Error
import Crontab.Field
import Crontab.Field.Set
import Crontab.Field.Set.Members
import Crontab.Field.Term
import Crontab.Language
import Crontab.Language.English
import Crontab.Phrase
import Crontab.Phrase.Shape
import Crontab.Question
import Crontab.Runs
import Crontab.Schedule
import Crontab.Schedule.Occurrence
import Crontab.Schedule.Seek
import Crontab.Stamp
import Crontab.Text.Blank
import Crontab.Text.Integer
import Crontab.Zone
import Crontab.Zone.Rule
import Crontab.Zone.Showing
import Crontab.Zone.Table
import Crontab.Proofs.Outcome
import Crontab.Proofs.Filling
import Crontab.Proofs.Valid
import Crontab.Proofs.Correction
import Crontab.Proofs.Nearest
import Crontab.Proofs.Budget
import Crontab.Proofs.Moving
import Crontab.Proofs.Settling
import Crontab.Proofs.LeapSecond
import Crontab.Proofs.Attempts
import Crontab.Proofs.Rewind
import Crontab.Proofs.Regular
import Crontab.Proofs.Begins
import Crontab.Proofs.OtherPass
import Crontab.Proofs.StandIn
import Crontab.Proofs.Retries
import Crontab.Proofs.EndOfGap
import Crontab.Proofs.Finding
import Crontab.Proofs.Turns
import Crontab.Proofs.Journey
import Crontab.Proofs.Sight
import Crontab.Proofs.FarFromGaps
import Crontab.Proofs.FoldScan
import Crontab.Proofs.BothWays
import Crontab.Proofs.SteadyClock
import Crontab.Proofs.Later
import Crontab.Proofs.Waiting
import Crontab.Proofs.RoundTrip
import Crontab.Proofs.Soundness
import Crontab.Proofs.Precision
import Crontab.Proofs.OwnMinute
import Crontab.Proofs.Words
import Crontab.Proofs.Spelling
import Crontab.Proofs.Grammar
import Crontab.Proofs.Parsing
import Crontab.Proofs.Invariant
import Crontab.Proofs.Enumeration
import Crontab.Proofs.OffCalendar
import Crontab.Proofs.Lookups
import Crontab.Proofs.Shapes
import Crontab.Proofs.Telling
import Crontab.Proofs.Wording
import Crontab.Proofs.EnglishWords
import Crontab.Proofs.Legible
import Crontab.Proofs.Agreement
import Crontab.Proofs.Feasible
import Crontab.Proofs.EitherDay
import Crontab.Proofs.Skipped
import Crontab.Proofs.Unfolding
import Crontab.Proofs.WordSet
import Crontab.Proofs.Respelling
import Crontab.Proofs.Saying
import Crontab.Proofs.ByteShapes
import Crontab.Proofs.Returning
import Crontab.Proofs.Recognition
import Crontab.Proofs.Halving
import Crontab.Proofs.Restart
