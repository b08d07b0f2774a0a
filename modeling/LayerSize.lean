import LayerSize.PixelSize.Distinct
import LayerSize.Session
import LayerSize.Proofs.Document.Agreement
import LayerSize.Proofs.Document.Lists
import LayerSize.Proofs.Document.Records
import LayerSize.Proofs.PixelSize.DoubleEncoding
import LayerSize.Proofs.PixelSize.Quotes
import LayerSize.Proofs.PixelSize.ReadBack
import LayerSize.Proofs.PixelSize.LastMembers
import LayerSize.Proofs.Session.Reports
import LayerSize.Proofs.PixelSize.Malformed
import LayerSize.Proofs.PixelSize.SignedValues
import LayerSize.Proofs.PixelSize.Rounding
import LayerSize.Proofs.PixelSize.Conversions
import LayerSize.Proofs.PixelSize.NumericStrings
import LayerSize.Proofs.PixelSize.Scaling
import LayerSize.Proofs.Session.Settling
import LayerSize.Proofs.Json.ShortLiterals
import LayerSize.Proofs.Json.Placed
import LayerSize.Proofs.PixelSize.ShortLiterals
import LayerSize.Proofs.PixelSize.NearestPixels
import LayerSize.Proofs.PixelSize.Widening
import LayerSize.Proofs.PixelSize.ScalingOrder
import LayerSize.Proofs.PixelSize.Zooming
import LayerSize.Proofs.SubpixelSize.Products
import LayerSize.Proofs.SubpixelSize.Equality
import LayerSize.Proofs.SubpixelSize.Text
import LayerSize.Proofs.Document.Places
import LayerSize.Proofs.PixelSize.Distinct
