import Multiprecision.Base
import Multiprecision.BinaryFloat.Digits
import Multiprecision.BinaryFloat.Format
import Multiprecision.BinaryFloat.Scaled
import Multiprecision.BinaryFloat.Shortest
import Multiprecision.Chunks
import Multiprecision.Digit
import Multiprecision.Digits
import Multiprecision.Digits.Difference
import Multiprecision.Digits.DigitQuotient
import Multiprecision.Digits.Division
import Multiprecision.Digits.LongDivision
import Multiprecision.Digits.Product
import Multiprecision.Digits.RecursiveDivision
import Multiprecision.Digits.Shift
import Multiprecision.Digits.Sum
import Multiprecision.Error
import Multiprecision.Fingerprint
import Multiprecision.Integer
import Multiprecision.Integer.Arithmetic
import Multiprecision.Integer.Exchange
import Multiprecision.Integer.Fingerprint
import Multiprecision.Integer.Float
import Multiprecision.Integer.Layout
import Multiprecision.Integer.Native
import Multiprecision.Integer.Text
import Multiprecision.Integer.Words
import Multiprecision.Magnitude
import Multiprecision.Native
import Multiprecision.Numeral.Reading
import Multiprecision.Numeral.Writing
import Multiprecision.Power
import Multiprecision.Proofs.BinaryFloat.Decomposition
import Multiprecision.Proofs.BinaryFloat.Digits
import Multiprecision.Proofs.BinaryFloat.Horner
import Multiprecision.Proofs.BinaryFloat.Neighbours
import Multiprecision.Proofs.BinaryFloat.Rounding
import Multiprecision.Proofs.BinaryFloat.Value
import Multiprecision.Proofs.Digits.BlockRuns
import Multiprecision.Proofs.Digits.Correction
import Multiprecision.Proofs.Digits.Difference
import Multiprecision.Proofs.Digits.Division
import Multiprecision.Proofs.Digits.HalvingRuns
import Multiprecision.Proofs.Digits.LongDivision
import Multiprecision.Proofs.Digits.Order
import Multiprecision.Proofs.Digits.Places
import Multiprecision.Proofs.Digits.Product
import Multiprecision.Proofs.Digits.QuotientDigit
import Multiprecision.Proofs.Digits.RecursiveDivision
import Multiprecision.Proofs.Digits.Shift
import Multiprecision.Proofs.Digits.Sum
import Multiprecision.Proofs.Digits.Windows
import Multiprecision.Proofs.Integer.Arithmetic
import Multiprecision.Proofs.Integer.Canonical
import Multiprecision.Proofs.Integer.Conversion
import Multiprecision.Proofs.Integer.Decimal
import Multiprecision.Proofs.Integer.Float
import Multiprecision.Proofs.Integer.FloatDifference
import Multiprecision.Proofs.Integer.FloatNearest
import Multiprecision.Proofs.Integer.Grammar
import Multiprecision.Proofs.Integer.Layout
import Multiprecision.Proofs.Integer.Native
import Multiprecision.Proofs.Integer.Order
import Multiprecision.Proofs.Integer.Text
import Multiprecision.Proofs.Integer.Words
import Multiprecision.Proofs.Numeral.Expansion
import Multiprecision.Proofs.Numeral.Grammar
import Multiprecision.Proofs.Numeral.Overflow
import Multiprecision.Proofs.Numeral.Reading
import Multiprecision.Proofs.Numeral.TokenLoop
import Multiprecision.Proofs.Numeral.Writing
import Multiprecision.Proofs.Registers
import Multiprecision.Proofs.Registers.Native
import Multiprecision.Proofs.Result
import Multiprecision.Proofs.Token
import Multiprecision.Proofs.Wide
import Multiprecision.Registers
import Multiprecision.Settings.Files
import Multiprecision.Settings.Ratio
import Multiprecision.Settings.Threshold
import Multiprecision.Sign
import Multiprecision.Text.QuotedByte
import Multiprecision.Token
import Multiprecision.Wide
