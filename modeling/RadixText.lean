import RadixText.ExtFloat.PowerOfTen
import RadixText.ExtFloat.Scale
import RadixText.Proofs.Conversions
import RadixText.Proofs.FixedRuns
import RadixText.Proofs.GrowingRuns
import RadixText.Proofs.Midpoints
import RadixText.Value
import RadixText.Proofs.RadixMultiples
import RadixText.Proofs.ShortestDigits
import RadixText.Proofs.ShortestTexts
import RadixText.Proofs.Windows
import RadixText.Proofs.AnyNeighbourhood
import RadixText.Proofs.HalfWords
import RadixText.FloatText.DigitCells
import RadixText.Proofs.DigitCells
import RadixText.Proofs.DigitRoom
import RadixText.Proofs.PowersOfTen
import RadixText.Proofs.TextShapes
import RadixText.Proofs.Additions
import RadixText.Proofs.Decodings
import RadixText.FloatText.CellText
import RadixText.Proofs.WrittenTexts
import RadixText.Proofs.Scalings
import RadixText.Radix.PairTable
import RadixText.Numeral.Written
import RadixText.Proofs.GroupedDigits
import RadixText.Proofs.CountedNumerals
import RadixText.Proofs.FlagTexts
import RadixText.Proofs.BignumRuns
