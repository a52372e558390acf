import LexPaint.Main
import LexPaint.Proofs.ChangeNotifications
import LexPaint.Proofs.ClosingMarks
import LexPaint.Proofs.CommentNames
import LexPaint.Proofs.ConfigRoundTrip
import LexPaint.Proofs.EmbeddedSections
import LexPaint.Proofs.ExtendedWords
import LexPaint.Proofs.FiniteScans
import LexPaint.Proofs.HeredocBodies
import LexPaint.Proofs.HeredocScans
import LexPaint.Proofs.IntervalQueries
import LexPaint.Proofs.KeywordRuns
import LexPaint.Proofs.LexerAgreement
import LexPaint.Proofs.MarkSearches
import LexPaint.Proofs.MarkupEdits
import LexPaint.Proofs.MeasurementOrder
import LexPaint.Proofs.QuoteClassification
import LexPaint.Proofs.QuoteOperatorEnds
import LexPaint.Proofs.QuotedMarks
import LexPaint.Proofs.QuotesAndComments
import LexPaint.Proofs.Rendering
import LexPaint.Proofs.SectionOverlaps
import LexPaint.Proofs.StringShapes
import LexPaint.Proofs.TagShapes
import LexPaint.Proofs.WholeComments
