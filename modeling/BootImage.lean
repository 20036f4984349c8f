import BootImage.Target
import BootImage.Memory
import BootImage.TypeMap
import BootImage.Builder
import BootImage.ClassFile
import BootImage.Layout
import BootImage.Copy
import BootImage.Visitor
import BootImage.Allocation
import BootImage.Patching
import BootImage.Transcription
import BootImage.Image
import BootImage.CodeImage
import BootImage.Walker
import BootImage.Consistency
import BootImage.Masks
import BootImage.Resolve
import BootImage.Fidelity
import BootImage.Serializer
import BootImage.Numbering
import BootImage.Progress
import BootImage.Contents
import BootImage.References
import BootImage.Fixie
import BootImage.Loading
import BootImage.Fitness
import BootImage.BufferIndependence
